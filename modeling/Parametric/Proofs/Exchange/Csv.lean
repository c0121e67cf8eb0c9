import Mathlib
import Parametric.Exchange.Csv
import Parametric.Proofs.Definition.Notation

/-!
# Tables that are read back

A table that was written is read back row by row, whatever stands in its fields. The definitions come
back with trimmed texts, in whatever order the columns stand.
-/

namespace Parametric.Csv

/-! ## Fields -/

def Cursor.pushAll (s : Cursor) (text : List Char) : Cursor :=
  { s with current := text.reverse ++ s.current, line := s.line + text.count '\n' }

section Fields

variable {s : Cursor} {text rest : List Char}

theorem pushAll_push {c : Char} (h : c ≠ '\n') : (s.push c).pushAll text = s.pushAll (c :: text) := by
  simp [Cursor.pushAll, Cursor.push, h]

theorem pushAll_break : Cursor.pushAll { s.push '\n' with line := s.line + 1 } text =
    s.pushAll ('\n' :: text) := by
  simp only [Cursor.pushAll, Cursor.push, List.reverse_cons, List.append_assoc, List.singleton_append,
    List.count_cons_self, Cursor.mk.injEq, true_and, and_true]
  omega

theorem rowsFrom_doubleQuotes (hrest : rest.head? ≠ some '"') :
    rowsFrom true s (doubleQuotes text ++ '"' :: rest) = rowsFrom false (s.pushAll text) rest := by
  induction text generalizing s with
  | nil =>
      cases rest with
      | nil => simp [doubleQuotes, rowsFrom, Cursor.pushAll]
      | cons c rest =>
          have hc : c ≠ '"' := by simpa using hrest
          simp [doubleQuotes, rowsFrom, Cursor.pushAll, hc]
  | cons c text ih =>
      by_cases hquote : c = '"'
      · subst hquote
        rw [← pushAll_push (by decide), ← ih]
        simp [doubleQuotes, rowsFrom]
      · by_cases hbreak : c = '\n'
        · subst hbreak
          rw [← pushAll_break, ← ih]
          simp [doubleQuotes, rowsFrom]
        · rw [← pushAll_push hbreak, ← ih]
          simp [doubleQuotes, rowsFrom, hquote]

theorem rowsFrom_plain (h : ∀ c ∈ text, c ≠ ',' ∧ c ≠ '"' ∧ c ≠ '\n' ∧ c ≠ '\r') :
    rowsFrom false s (text ++ rest) = rowsFrom false (s.pushAll text) rest := by
  induction text generalizing s with
  | nil => rfl
  | cons c text ih =>
      obtain ⟨⟨hcomma, hquote, hbreak, hreturn⟩, htext⟩ := List.forall_mem_cons.mp h
      rw [← pushAll_push hbreak, ← ih htext]
      simp [rowsFrom]

theorem needsQuotes_eq_false {field : String} (h : needsQuotes field = false) :
    ∀ c ∈ field.toList, c ≠ ',' ∧ c ≠ '"' ∧ c ≠ '\n' ∧ c ≠ '\r' := by
  simpa [needsQuotes, not_or, and_assoc] using h

theorem rowsFrom_quoteField {field : String} (hcurrent : s.current = []) (hrest : rest.head? ≠ some '"') :
    rowsFrom false s ((quoteField field).toList ++ rest) = rowsFrom false (s.pushAll field.toList) rest := by
  cases hquotes : needsQuotes field with
  | true =>
      rw [quoteField, if_pos hquotes, String.toList_ofList, ← rowsFrom_doubleQuotes hrest]
      simp [rowsFrom, hcurrent]
  | false =>
      rw [quoteField, if_neg (by simp [hquotes]), rowsFrom_plain (needsQuotes_eq_false hquotes)]

end Fields

/-! ## Rows -/

theorem toList_rowText (fields : List String) : (rowText fields).toList =
    List.intercalate [','] (fields.map fun field => (quoteField field).toList) ++ ['\n'] := by
  simp [rowText, String.toList_intercalate, Function.comp_def]

theorem fields_pushAll (s : Cursor) (text : List Char) : (s.pushAll text).fields = s.fields := rfl

theorem current_pushAll {s : Cursor} (h : s.current = []) (text : List Char) :
    (s.pushAll text).current = text.reverse := by
  simp [Cursor.pushAll, h]

theorem rowsFrom_rowText {fields : List String} (hfields : fields ≠ []) {s : Cursor} (hcurrent : s.current = [])
    (hrow : s.fields.reverse ++ fields ≠ [""]) (rest : List Char) :
    ∃ line, rowsFrom false s ((rowText fields).toList ++ rest) =
      (rowsFrom false { line := line, start := line } rest).map (⟨s.start, s.fields.reverse ++ fields⟩ :: ·) := by
  induction fields generalizing s with
  | nil => exact absurd rfl hfields
  | cons field others ih =>
      cases others with
      | nil =>
          have hall : (s.pushAll field.toList).allFields = s.fields.reverse ++ [field] := by
            simp [Cursor.allFields, current_pushAll hcurrent, fields_pushAll]
          refine ⟨(s.pushAll field.toList).line + 1, ?_⟩
          rw [toList_rowText, List.map_singleton, List.intercalate_singleton, List.append_assoc,
            rowsFrom_quoteField hcurrent (by simp)]
          simp [rowsFrom, Cursor.row, hall, hrow, Cursor.nextRow]
          rfl
      | cons next more =>
          have hstep : rowsFrom false s ((rowText (field :: next :: more)).toList ++ rest) =
              rowsFrom false (s.pushAll field.toList).nextField ((rowText (next :: more)).toList ++ rest) := by
            rw [toList_rowText, toList_rowText, List.map_cons, List.map_cons, List.intercalate_cons_cons,
              List.append_assoc, List.append_assoc, List.append_assoc, rowsFrom_quoteField hcurrent (by simp)]
            simp [rowsFrom]
          -- The fields that were read stand in the cursor in reverse.
          have hfields' : (s.pushAll field.toList).nextField.fields = field :: s.fields := by
            simp [Cursor.nextField, current_pushAll hcurrent, fields_pushAll]
          obtain ⟨line, hline⟩ := ih (s := (s.pushAll field.toList).nextField) (by simp) rfl
            (by simpa [hfields'] using hrow)
          refine ⟨line, hstep.trans (hline.trans ?_)⟩
          rw [hfields', List.reverse_cons, List.append_assoc, List.singleton_append]
          rfl

theorem rowsFrom_table {table : List (List String)} (htable : ∀ fields ∈ table, fields ≠ [] ∧ fields ≠ [""])
    (line : Nat) : ∃ rows, rowsFrom false { line := line, start := line }
      (table.flatMap fun fields => (rowText fields).toList) = .ok rows ∧ rows.map (·.fields) = table := by
  induction table generalizing line with
  | nil => exact ⟨[], by simp [rowsFrom], rfl⟩
  | cons fields more ih =>
      obtain ⟨⟨hne, hempty⟩, hmore⟩ := List.forall_mem_cons.mp htable
      obtain ⟨next, hnext⟩ := rowsFrom_rowText hne (s := { line := line, start := line }) rfl (by simpa using hempty)
        (more.flatMap fun fields => (rowText fields).toList)
      obtain ⟨rows, hrows, hfields⟩ := ih hmore next
      refine ⟨⟨line, fields⟩ :: rows, ?_, congrArg (fields :: ·) hfields⟩
      rw [List.flatMap_cons, hnext, hrows]
      rfl

/-! ## Columns -/

def fieldIn (d : Definition) (column : String) : String :=
  ((columns.zip (rowOf d)).lookup column).getD ""

/-- The text of definitions with the columns in the order of a header. -/
def writeAs (header : List String) (definitions : List Definition) : String :=
  rowText header ++ String.join (definitions.map fun d => rowText (header.map (fieldIn d)))

theorem writeAs_columns (definitions : List Definition) : writeAs columns definitions = write definitions := rfl

theorem bind_findIdx? {α β : Type} {l : List α} {p : α → Bool} {a : α} (ha : a ∈ l)
    (hp : ∀ b ∈ l, p b = true ↔ b = a) (f : α → β) :
    (l.findIdx? p).bind (fun i => (l.map f)[i]?) = some (f a) := by
  cases hfound : l.findIdx? p with
  | none => exact absurd ((hp a ha).mpr rfl) (by simp [List.findIdx?_eq_none_iff.mp hfound a ha])
  | some i =>
      obtain ⟨hi, hmatch, -⟩ := List.findIdx?_eq_some_iff_getElem.mp hfound
      have hfield : l[i] = a := (hp _ (List.getElem_mem hi)).mp hmatch
      simp [hi, hfield]

theorem sameAscii_columns : ∀ column ∈ columns, ∀ other ∈ columns,
    Text.sameAscii (Text.trim other) column = true ↔ other = column := by
  decide

section Header

variable {header : List String} (hheader : header.Perm columns)
include hheader

theorem columnAt?_ne_none (column : String) (hcolumn : column ∈ columns) : columnAt? header column ≠ none := by
  rw [← Option.isSome_iff_ne_none, columnAt?, List.findIdx?_isSome, List.any_eq_true]
  exact ⟨column, hheader.mem_iff.mpr hcolumn, (sameAscii_columns column hcolumn column hcolumn).mpr rfl⟩

theorem cell?_map {column : String} (hcolumn : column ∈ columns) (f : String → String) :
    cell? header (header.map f) column = (some (Text.trim (f column))).filter (· != "") := by
  rw [cell?, columnAt?, bind_findIdx? (hheader.mem_iff.mpr hcolumn) fun other hother =>
    sameAscii_columns column hcolumn other (hheader.mem_iff.mp hother)]
  rfl

end Header

/-! ## Definitions -/

def trimmed? (text : Option String) : Option String := (text.map Text.trim).filter (· != "")

def readBack (now : Instant) (d : Definition) : Definition where
  identity := d.identity
  name := Text.trim d.name
  kind := d.kind
  group := Text.trim d.group
  description := trimmed? d.description
  perElement := d.perElement
  formula := trimmed? d.formula
  createdAt := now

theorem trimmed?_getD (text : Option String) :
    (some (Text.trim (text.getD ""))).filter (· != "") = trimmed? text := by
  cases text with
  | none => decide
  | some t => rfl

theorem filter_trim_kind (k : ValueKind) : (some (Text.trim k.name)).filter (· != "") = some k.name := by
  cases k <;> decide

theorem filter_trim_identity (t : Identity) : (some (Text.trim t.text)).filter (· != "") = some t.text := by
  have hne : t.text ≠ "" := by
    intro hempty
    have hlength := Identity.length_hyphenated t.length_digits
    rw [← Identity.toList_text, hempty] at hlength
    exact absurd hlength (by decide)
  rw [Identity.trim_text]
  simp [Option.filter, hne]

theorem readInstance_flag (value : Bool) :
    readInstance ((some (Text.trim (if value then "true" else "false"))).filter (· != "")) = .ok value := by
  cases value <;> decide

theorem getD_filter_trim (text : String) :
    ((some (Text.trim text)).filter (· != "")).getD "" = Text.trim text := by
  by_cases h : Text.trim text = "" <;> simp [Option.filter, h]

theorem readRow_map {header : List String} (hheader : header.Perm columns) (now : Instant)
    (supply : TokenSupply) {d : Definition} (hname : Text.trim d.name ≠ "") :
    readRow now header supply (header.map (fieldIn d)) = .ok (readBack now d, supply) := by
  have hcell : ∀ column text : String, column ∈ columns → fieldIn d column = text →
      cell? header (header.map (fieldIn d)) column = (some (Text.trim text)).filter (· != "") :=
    fun _ _ hcolumn htext => htext ▸ cell?_map hheader hcolumn (fieldIn d)
  have hidentity := (hcell "identity" _ (by decide) rfl).trans (filter_trim_identity d.identity)
  have hkind := (hcell "value_kind" _ (by decide) rfl).trans (filter_trim_kind d.kind)
  have hspelled : cell? header (header.map (fieldIn d)) "name" = some (Text.trim d.name) := by
    rw [hcell "name" d.name (by decide) rfl]
    simp [Option.filter, hname]
  have hgroup := hcell "group" d.group (by decide) rfl
  have hdescription := (hcell "description" _ (by decide) rfl).trans (trimmed?_getD d.description)
  have hinstance := hcell "is_instance" (if d.perElement then "true" else "false")
    (by decide) rfl
  have hformula := (hcell "formula" _ (by decide) rfl).trans (trimmed?_getD d.formula)
  simp only [readRow, hspelled, hkind, Option.getD_some, ValueKind.named?_name, hidentity, readIdentity,
    Identity.parseTrimmed?_text, hinstance, readInstance_flag, hgroup, getD_filter_trim, hdescription, hformula]
  rfl

theorem readRows_map {header : List String} (hheader : header.Perm columns) (now : Instant)
    (supply : TokenSupply) {ds : List Definition} (hnames : ∀ d ∈ ds, Text.trim d.name ≠ "") {rows : List Row}
    (hrows : rows.map (·.fields) = ds.map fun d => header.map (fieldIn d)) :
    readRows now header supply rows = .ok (ds.map (readBack now), supply) := by
  induction ds generalizing rows with
  | nil => rw [List.map_eq_nil_iff.mp hrows, readRows, List.map_nil]
  | cons d rest ih =>
      cases rows with
      | nil => simp at hrows
      | cons row more =>
          obtain ⟨hfields, hmore⟩ : row.fields = header.map (fieldIn d) ∧
              more.map (·.fields) = rest.map fun d => header.map (fieldIn d) := List.cons_eq_cons.mp hrows
          obtain ⟨hname, hrest⟩ := List.forall_mem_cons.mp hnames
          rw [readRows, hfields, readRow_map hheader now supply hname]
          simp only [ih hrest hmore]
          rfl

/-- The text of a table is read as its definitions, in whatever order its columns stand. -/
theorem read_writeAs {header : List String} (hheader : header.Perm columns) (now : Instant)
    (supply : TokenSupply) {ds : List Definition} (hnames : ∀ d ∈ ds, Text.trim d.name ≠ "") :
    read now supply (writeAs header ds) = .ok (ds.map (readBack now), supply) := by
  have hlength : header.length = 7 := hheader.length_eq
  have hlong : ∀ fields : List String, fields.length = 7 → fields ≠ [] ∧ fields ≠ [""] := by
    rintro fields h
    constructor <;> rintro rfl <;> simp at h
  have htable : ∀ fields ∈ header :: ds.map (fun d => header.map (fieldIn d)), fields ≠ [] ∧ fields ≠ [""] := by
    refine List.forall_mem_cons.mpr ⟨hlong header hlength, fun fields hfields => hlong fields ?_⟩
    obtain ⟨d, -, rfl⟩ := List.mem_map.mp hfields
    rw [List.length_map, hlength]
  obtain ⟨rows, hrows, hfields⟩ := rowsFrom_table htable 1
  have htext : (writeAs header ds).toList = (header :: ds.map fun d => header.map (fieldIn d)).flatMap
      fun fields => (rowText fields).toList := by
    simp [writeAs, String.toList_join, List.flatMap_map]
  cases rows with
  | nil => cases hfields
  | cons first rest =>
      obtain ⟨hfirst, hrest⟩ : first.fields = header ∧
          rest.map (·.fields) = ds.map fun d => header.map (fieldIn d) := List.cons_eq_cons.mp hfields
      have hname := columnAt?_ne_none hheader "name" (by decide)
      have hkind := columnAt?_ne_none hheader "value_kind" (by decide)
      rw [read, htext, show ({} : Cursor) = { line := 1, start := 1 } from rfl, hrows]
      simp only [hfirst, readRows_map hheader now supply hnames hrest]
      rw [if_neg (by simp [hname, hkind])]

/-- A table that was written is read back, and so is one with its columns in another order. -/
theorem read_write (now : Instant) (supply : TokenSupply) {ds : List Definition}
    (hnames : ∀ d ∈ ds, Text.trim d.name ≠ "") :
    read now supply (write ds) = .ok (ds.map (readBack now), supply) ∧
      ∀ header : List String, header.Perm columns →
        read now supply (writeAs header ds) = .ok (ds.map (readBack now), supply) :=
  ⟨writeAs_columns ds ▸ read_writeAs (.refl columns) now supply hnames,
    fun _ hheader => read_writeAs hheader now supply hnames⟩

/-- A definition with marks, line breaks and blanks in its texts. -/
def markedDefinition : Definition where
  identity := ⟨7⟩
  name := " Width, \"clear\"\r"
  kind := .length
  group := " \n"
  description := some "\"one\"\r\n,two "
  formula := some "\t"
  createdAt := ⟨0, 0⟩

theorem read_write_marked :
    (∀ d ∈ [markedDefinition], Text.trim d.name ≠ "") ∧
      read ⟨0, 0⟩ (.ofSeed 0) (writeAs columns.reverse [markedDefinition]) =
        .ok ([{ markedDefinition with
          name := "Width, \"clear\"", group := "", description := some "\"one\"\r\n,two", formula := none }],
          .ofSeed 0) := by
  have hnames : ∀ d ∈ [markedDefinition], Text.trim d.name ≠ "" := by decide
  have hback : readBack ⟨0, 0⟩ markedDefinition = { markedDefinition with
      name := "Width, \"clear\"", group := "", description := some "\"one\"\r\n,two", formula := none } := by
    decide
  refine ⟨hnames, ?_⟩
  rw [(read_write ⟨0, 0⟩ (.ofSeed 0) hnames).2 columns.reverse (List.reverse_perm columns), List.map_singleton,
    hback]

end Parametric.Csv
