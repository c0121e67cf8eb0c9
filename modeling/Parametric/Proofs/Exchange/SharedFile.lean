import Mathlib
import Parametric.Exchange.SharedFile
import Parametric.Proofs.Definition.Notation
import Parametric.Proofs.Name.Validation
import Parametric.Proofs.Sorting
import Parametric.Proofs.Text.Lines

/-!
# Exchange files that are read back

An exchange file that was written is read back line by line, whatever stands in the texts of its
definitions. They come back group by group, with texts that fit into a field: the file has them in the stable
order by their groups and names.
-/

namespace Parametric.SharedFile

/-! ## Fields -/

def cleaned (text : String) : String := Text.trim (fieldText text)

def cleaned? (text : Option String) : Option String := (text.map cleaned).filter (· != "")

def readBack (now : Instant) (d : Definition) : Definition where
  identity := d.identity
  name := cleaned d.name
  kind := d.kind
  group := cleaned d.group
  visible := d.visible
  description := cleaned? d.description
  category := cleaned? d.category
  createdAt := now

/-- A text that ends neither a field nor a line. -/
structure Fits (text : String) : Prop where
  tab : '\t' ∉ text.toList
  newline : '\n' ∉ text.toList
  carriageReturn : '\r' ∉ text.toList

theorem fits_fieldText (text : String) : Fits (fieldText text) := by
  constructor <;> simp only [fieldText, String.toList_ofList, List.mem_map, not_exists, not_and] <;>
    intro c _ <;> split <;> simp_all

theorem fits_of_isAlphanum {text : String} (h : ∀ c ∈ text.toList, c.isAlphanum = true ∨ c = '-') : Fits text := by
  constructor <;> exact fun hmem => absurd (h _ hmem) (by decide)

theorem fits_identity (t : Identity) : Fits t.text := fits_of_isAlphanum fun _ => Identity.isAlphanum_or_hyphen

theorem fits_toString (n : Nat) : Fits (toString n) :=
  fits_of_isAlphanum fun _ hc => .inl (by simp [Char.isAlphanum, Text.isDigit_of_mem_toString hc])

theorem fits_exchangeWord (k : ValueKind) : Fits k.exchangeWord := by
  cases k <;> constructor <;> simp [ValueKind.exchangeWord]

theorem nonBlank?_fieldText (text : Option String) :
    nonBlank? (some (fieldText (text.getD ""))) = cleaned? text := by
  cases text with
  | none => decide
  | some t => simp only [nonBlank?, cleaned?, cleaned, Option.map_some, Option.getD_some]

theorem visible?_flag (value : Bool) : visible? (if value then "1" else "0") = .ok value := by
  cases value <;> decide

/-! ## Lines -/

section Lines

variable {fields : List String}

theorem splitAt_fields (hne : fields ≠ []) (h : ∀ field ∈ fields, Fits field) :
    (Text.splitAt '\t' ("\t".intercalate fields).toList).map String.ofList = fields := by
  have hsplit : Text.splitAt '\t' ("\t".intercalate fields).toList = fields.map String.toList := by
    rw [String.toList_intercalate]
    exact Text.splitAt_intercalate (by simpa using hne) (List.forall_mem_map.mpr fun field hfield => (h field hfield).tab)
  rw [hsplit, List.map_map]
  exact List.map_id'' (fun field => String.ofList_toList) fields

theorem intercalate_on_line (h : ∀ field ∈ fields, Fits field) :
    '\n' ∉ ("\t".intercalate fields).toList ∧ '\r' ∉ ("\t".intercalate fields).toList := by
  have hmem : ∀ c ∈ ("\t".intercalate fields).toList, c = '\t' ∨ ∃ field ∈ fields, c ∈ field.toList := by
    intro c hc
    rw [String.toList_intercalate] at hc
    rcases mem_intercalate hc with htab | ⟨piece, hpiece, hc⟩
    · exact .inl (List.mem_singleton.mp htab)
    · obtain ⟨field, hfield, rfl⟩ := List.mem_map.mp hpiece
      exact .inr ⟨field, hfield, hc⟩
  constructor <;> intro hc <;> obtain htab | ⟨field, hfield, hc⟩ := hmem _ hc
  · exact absurd htab (by decide)
  · exact (h field hfield).newline hc
  · exact absurd htab (by decide)
  · exact (h field hfield).carriageReturn hc

theorem not_skipped {c : Char} {rest : List Char} (word : String) (hword : word.toList = c :: rest)
    (hc : c.isAlphanum = true) :
    let text := ("\t".intercalate (word :: fields)).toList
    (text.all Text.isBlank || text.head? == some '#' || text.head? == some '*') = false := by
  obtain ⟨more, hmore⟩ : ∃ more, ("\t".intercalate (word :: fields)).toList = c :: more := by
    rw [String.toList_intercalate]
    cases fields with
    | nil => exact ⟨rest, by simp [hword]⟩
    | cons next others => exact ⟨_, by rw [List.map_cons, List.map_cons, List.intercalate_cons_cons, hword]; rfl⟩
  have hmark : c ≠ '#' ∧ c ≠ '*' := by
    constructor <;> rintro rfl <;> exact absurd hc (by decide)
  simp [hmore, Text.isBlank_of_isAlphanum hc, hmark]

variable {now : Instant} {line : Nat} {p : Progress} {group : String} {number : Nat}

theorem groupLine_eq (number : Nat) (group : String) : "GROUP\t" ++ toString number ++ "\t" ++ fieldText group =
    "\t".intercalate ["GROUP", toString number, fieldText group] := by
  simp [← String.toList_inj]

theorem fits_group (number : Nat) (group : String) :
    ∀ field ∈ ["GROUP", toString number, fieldText group], Fits field := by
  simp only [List.forall_mem_cons, fits_toString, fits_fieldText]
  exact ⟨by constructor <;> decide, trivial, trivial, by simp⟩

theorem fits_param (number : Nat) (d : Definition) :
    ∀ field ∈ ["PARAM", d.identity.text, fieldText d.name, d.kind.exchangeWord, fieldText (d.category.getD ""),
      toString number, if d.visible then "1" else "0", fieldText (d.description.getD "")], Fits field := by
  have hflag : Fits (if d.visible then "1" else "0") := by
    split <;> constructor <;> decide
  simp only [List.forall_mem_cons, fits_toString, fits_fieldText, fits_identity, fits_exchangeWord, hflag]
  exact ⟨by constructor <;> decide, trivial, trivial, trivial, trivial, trivial, trivial, trivial, by simp⟩

theorem readLine_group (hnumber : number < Number.wordLimit) :
    readLine now line p ("GROUP\t" ++ toString number ++ "\t" ++ fieldText group).toList =
      .ok { p with groups := (number, cleaned group) :: p.groups, active := some number } := by
  rw [groupLine_eq]
  simp only [readLine, not_skipped "GROUP" rfl (by decide),
    splitAt_fields (List.cons_ne_nil _ _) (fits_group number group), Bool.false_eq_true, ↓reduceIte, List.head?_cons,
    Option.getD_some, readGroup, Text.trim_toString, Text.nat?_toString hnumber]
  rfl

theorem readLine_paramLine (hnumber : number < Number.wordLimit) (hactive : p.active = some number)
    {d : Definition} (hgroup : p.groups.lookup number = some (cleaned d.group)) (hname : cleaned d.name ≠ "") :
    readLine now line p (paramLine number d).toList =
      .ok { p with definitions := p.definitions ++ [readBack now d] } := by
  have hbeq : (Text.trim (fieldText d.name) == "") = false := by simpa [cleaned] using hname
  rw [paramLine]
  simp only [readLine, not_skipped "PARAM" rfl (by decide),
    splitAt_fields (List.cons_ne_nil _ _) (fits_param number d), Bool.false_eq_true, ↓reduceIte, List.head?_cons,
    Option.getD_some, readParam, Identity.parseTrimmed?_text, ValueKind.named?_exchangeWord, Text.trim_toString,
    Text.nat?_toString hnumber, orCause, hactive, hgroup, hbeq, visible?_flag, nonBlank?_fieldText]
  simp only [bind, Except.bind, ↓reduceIte, List.append_nil]
  rfl

end Lines

/-! ## Groups -/

theorem readLines_append (now : Instant) (line : Nat) (p : Progress) (texts more : List (List Char)) :
    readLines now line p (texts ++ more) =
      (readLines now line p texts).bind fun p' => readLines now (line + texts.length) p' more := by
  induction texts generalizing line p with
  | nil => rfl
  | cons text rest ih =>
      rw [List.cons_append, readLines, readLines]
      cases readLine now line p text with
      | error cause => rfl
      | ok p' =>
          refine (ih (line + 1) p').trans ?_
          rw [List.length_cons, Nat.add_assoc, Nat.add_comm 1]

/-- Lines that are read one after the other, wherever they stand, lead from `p` to `p'`. -/
def Reads (now : Instant) (p : Progress) (texts : List String) (p' : Progress) : Prop :=
  ∀ line, readLines now line p (texts.map String.toList) = .ok p'

section Groups

variable {now : Instant} {p p' p'' : Progress} {texts more : List String} {ds : List Definition}

theorem Reads.cons {text : String} (h : ∀ line, readLine now line p text.toList = .ok p')
    (htexts : Reads now p' texts p'') : Reads now p (text :: texts) p'' := by
  intro line
  rw [List.map_cons, readLines, h line]
  exact htexts (line + 1)

theorem Reads.append (h : Reads now p texts p') (hmore : Reads now p' more p'') : Reads now p (texts ++ more) p'' := by
  intro line
  rw [List.map_append, readLines_append, h line]
  exact hmore _

theorem Reads.of_forall (h : ∀ text ∈ texts, ∀ line, readLine now line p text.toList = .ok p) : Reads now p texts p := by
  induction texts with
  | nil => exact fun line => rfl
  | cons text rest ih =>
      obtain ⟨htext, hrest⟩ := List.forall_mem_cons.mp h
      exact .cons htext (ih hrest)

theorem reads_header (now : Instant) : Reads now {} header {} := by
  have hversion : ∀ line, readLine now line {} "META\t2\t1".toList = .ok {} := by
    intro line
    have hfits : ∀ field ∈ ["META", "2", "1"], Fits field := by
      simp only [List.forall_mem_cons]
      exact ⟨by constructor <;> decide, by constructor <;> decide, by constructor <;> decide, by simp⟩
    have htrim : (Text.trim "2" == "2") = true := by decide
    rw [show "META\t2\t1" = "\t".intercalate ["META", "2", "1"] by decide]
    simp only [readLine, not_skipped "META" rfl (by decide), splitAt_fields (List.cons_ne_nil _ _) hfits,
      Bool.false_eq_true, ↓reduceIte, List.head?_cons, Option.getD_some, versionWarnings, htrim, List.append_nil]
  have hcomment : ∀ text ∈ header, text ≠ "META\t2\t1" → text.toList.head? = some '#' ∨ text.toList.head? = some '*' := by
    decide
  refine .of_forall fun text htext line => ?_
  by_cases hmeta : text = "META\t2\t1"
  · exact hmeta ▸ hversion line
  · rcases hcomment text htext hmeta with h | h <;> simp [readLine, h]

theorem reads_paramLines {group : String} {number : Nat} (hnumber : number < Number.wordLimit)
    (hactive : p.active = some number) (hgroup : p.groups.lookup number = some (cleaned group))
    (hds : ∀ d ∈ ds, d.group = group ∧ cleaned d.name ≠ "") :
    Reads now p (ds.map (paramLine number)) { p with definitions := p.definitions ++ ds.map (readBack now) } := by
  induction ds generalizing p with
  | nil => exact fun line => by simp [readLines]
  | cons d rest ih =>
      obtain ⟨⟨hd, hname⟩, hrest⟩ := List.forall_mem_cons.mp hds
      refine .cons (fun line => readLine_paramLine hnumber hactive (hd ▸ hgroup) hname) ?_
      simpa using ih (p := { p with definitions := p.definitions ++ [readBack now d] }) hactive hgroup hrest

theorem mem_membersOf {d : Definition} {group : String} : d ∈ membersOf ds group ↔ d ∈ ds ∧ d.group = group := by
  simp [membersOf, List.mem_mergeSort]

/-- The lines of some groups add their definitions, group by group. -/
theorem reads_groups (groups : List String) (number : Nat) (hnumber : number + groups.length ≤ Number.wordLimit)
    (hds : ∀ d ∈ ds, cleaned d.name ≠ "") :
    ∃ p', Reads now p ((groups.zipIdx number).flatMap fun (group, number) => groupLines ds group number) p' ∧
      p'.definitions = p.definitions ++ (groups.flatMap (membersOf ds)).map (readBack now) ∧
      p'.warnings = p.warnings := by
  induction groups generalizing number p with
  | nil => exact ⟨p, fun line => rfl, by simp, rfl⟩
  | cons group rest ih =>
      rw [List.length_cons] at hnumber
      obtain ⟨p', hreads, hdefinitions, hwarnings⟩ := ih (number + 1) (by omega) (p := { p with
        groups := (number, cleaned group) :: p.groups
        active := some number
        definitions := p.definitions ++ (membersOf ds group).map (readBack now) })
      refine ⟨p', ?_, ?_, hwarnings⟩
      · rw [List.zipIdx_cons, List.flatMap_cons]
        refine .append (.cons (fun line => readLine_group (by omega)) ?_) hreads
        exact reads_paramLines (by omega) rfl List.lookup_cons_self fun d hd =>
          ⟨(mem_membersOf.mp hd).2, hds d (mem_membersOf.mp hd).1⟩
      · simpa using hdefinitions

end Groups

/-! ## Files -/

/-- Definitions in the order in which they are written. -/
def inOrder (ds : List Definition) : List Definition :=
  (sortedTexts (ds.map (·.group))).flatMap (membersOf ds)

theorem perm_flatMap_membersOf (ds : List Definition) {groups : List String} (hnodup : groups.Nodup) :
    (groups.flatMap (membersOf ds)).Perm (ds.filter fun d => groups.contains d.group) := by
  induction groups with
  | nil => simp
  | cons group rest ih =>
      obtain ⟨hgroup, hrest⟩ := List.nodup_cons.mp hnodup
      have hothers : ds.filter (fun d => rest.contains d.group) =
          (ds.filter fun d => (group :: rest).contains d.group).filter (fun d => !(d.group == group)) := by
        rw [List.filter_filter]
        refine List.filter_congr fun d _ => ?_
        by_cases hd : d.group = group <;> simp [hd, hgroup]
      have hmembers : (membersOf ds group).Perm
          ((ds.filter fun d => (group :: rest).contains d.group).filter (fun d => d.group == group)) := by
        refine (List.mergeSort_perm _ _).trans (.of_eq ?_)
        rw [List.filter_filter]
        refine List.filter_congr fun d _ => ?_
        by_cases hd : d.group = group <;> simp [hd]
      rw [List.flatMap_cons]
      exact (hmembers.append (hothers ▸ ih hrest)).trans (List.filter_append_perm _ _)

theorem perm_inOrder (ds : List Definition) : (inOrder ds).Perm ds := by
  refine (perm_flatMap_membersOf ds ((pairwise_sortedTexts _).imp ne_of_lt)).trans (.of_eq (List.filter_eq_self.mpr fun d hd => ?_))
  simpa [mem_sortedTexts] using ⟨d, hd, rfl⟩

theorem length_sortedTexts_le (texts : List String) : (sortedTexts texts).length ≤ texts.length := by
  have hnodup : (sortedTexts texts).Nodup := (pairwise_sortedTexts texts).imp ne_of_lt
  exact (hnodup.subperm fun _ => mem_sortedTexts.mp).length_le

theorem mem_body {groups : List (String × Nat)} {text : String} {ds : List Definition}
    (h : text ∈ groups.flatMap fun (group, number) => groupLines ds group number) :
    '\n' ∉ text.toList ∧ '\r' ∉ text.toList := by
  obtain ⟨⟨group, number⟩, -, htext⟩ := List.mem_flatMap.mp h
  rcases List.mem_cons.mp htext with rfl | htext
  · rw [groupLine_eq]
    exact intercalate_on_line (fits_group number group)
  · obtain ⟨d, -, rfl⟩ := List.mem_map.mp htext
    exact intercalate_on_line (fits_param number d)

/-- The text of an exchange file is read as its definitions, without warnings. -/
theorem read_write_inOrder (now : Instant) {ds : List Definition} (hds : ∀ d ∈ ds, cleaned d.name ≠ "")
    (hlength : ds.length < Number.wordLimit) :
    read now (write ds) = .ok ((inOrder ds).map (readBack now), []) := by
  have hcount := length_sortedTexts_le (ds.map (·.group))
  rw [List.length_map] at hcount
  obtain ⟨p, hreads, hdefinitions, hwarnings⟩ :
      ∃ p, Reads now {} (((sortedTexts (ds.map (·.group))).zipIdx 1).flatMap
          fun (group, number) => groupLines ds group number) p ∧
        p.definitions = [] ++ ((sortedTexts (ds.map (·.group))).flatMap (membersOf ds)).map (readBack now) ∧
        p.warnings = [] := reads_groups _ 1 (by omega) hds
  have hlines : ∀ text ∈ header ++ ((sortedTexts (ds.map (·.group))).zipIdx 1).flatMap
      (fun (group, number) => groupLines ds group number), '\n' ∉ text.toList ∧ '\r' ∉ text.toList :=
    List.forall_mem_append.mpr ⟨by decide, fun _ => mem_body⟩
  rw [read, write, Text.lines_join hlines, (reads_header now).append hreads 1]
  simp only [Except.map, hdefinitions, hwarnings, List.nil_append, inOrder]

/-! ## The order of a file -/

/-- Whether a definition comes before another one, or either may: by their groups, then by their names. -/
def comesBefore (a b : Definition) : Bool := a.group < b.group || (a.group == b.group && a.name ≤ b.name)

theorem comesBefore_iff {a b : Definition} :
    comesBefore a b = true ↔ toLex (a.group, a.name) ≤ toLex (b.group, b.name) := by
  simp [comesBefore, Prod.Lex.le_iff]

section Order

variable (ds : List Definition) (group : String)

theorem pairwise_membersOf : (membersOf ds group).Pairwise fun a b => a.name ≤ b.name := by
  refine (List.pairwise_mergeSort (fun a b c => ?_) (fun a b => ?_) _).imp of_decide_eq_true
  · simpa using String.le_trans
  · simpa using String.le_total a.name b.name

theorem sublist_membersOf {same : List Definition} (hsame : same.Pairwise fun a b => a.name ≤ b.name)
    (hsub : same.Sublist (ds.filter (·.group == group))) : same.Sublist (membersOf ds group) := by
  refine List.sublist_mergeSort (fun a b c => ?_) (fun a b => ?_) (hsame.imp decide_eq_true) hsub
  · simpa using String.le_trans
  · simpa using String.le_total a.name b.name

theorem pairwise_inOrder : (inOrder ds).Pairwise fun a b => toLex (a.group, a.name) ≤ toLex (b.group, b.name) := by
  refine List.pairwise_flatMap.mpr ⟨fun group _ => ?_, (pairwise_sortedTexts _).imp fun hlt a ha b hb => ?_⟩
  · refine List.Pairwise.imp_of_mem (fun {a b} ha hb hname => ?_) (pairwise_membersOf ds group)
    rw [(mem_membersOf.mp ha).2, (mem_membersOf.mp hb).2]
    exact Prod.Lex.le_iff.mpr (.inr ⟨rfl, hname⟩)
  · rw [← (mem_membersOf.mp ha).2, ← (mem_membersOf.mp hb).2] at hlt
    exact Prod.Lex.le_iff.mpr (.inl hlt)

theorem sublist_inOrder (label : String ×ₗ String) :
    (ds.filter fun d => toLex (d.group, d.name) = label).Sublist (inOrder ds) := by
  obtain ⟨⟨group, name⟩, rfl⟩ : ∃ pair, toLex pair = label := ⟨ofLex label, rfl⟩
  have hlabel : ∀ d : Definition, decide (toLex (d.group, d.name) = toLex (group, name)) = true ↔
      d.group = group ∧ d.name = name := by simp
  by_cases hgroup : group ∈ sortedTexts (ds.map (·.group))
  · have hmembers :
        (ds.filter fun d => toLex (d.group, d.name) = toLex (group, name)).Sublist (membersOf ds group) := by
      refine sublist_membersOf ds group (List.pairwise_of_forall_mem_list fun a ha b hb => ?_) ?_
      · rw [List.mem_filter, hlabel] at ha hb
        rw [ha.2.2, hb.2.2]
      · exact List.monotone_filter_right _ fun d hd => beq_iff_eq.mpr ((hlabel d).mp hd).1
    exact hmembers.trans (List.sublist_flatten_of_mem (List.mem_map_of_mem hgroup))
  · have hnone : ds.filter (fun d => toLex (d.group, d.name) = toLex (group, name)) = [] := by
      refine List.filter_eq_nil_iff.mpr fun d hd hclass => hgroup ?_
      rw [← ((hlabel d).mp hclass).1]
      exact mem_sortedTexts.mpr (List.mem_map_of_mem hd)
    rw [hnone]
    exact List.nil_sublist _

theorem inOrder_eq_mergeSort : inOrder ds = ds.mergeSort comesBefore :=
  eq_mergeSort_of_stable (fun _ _ => comesBefore_iff) (perm_inOrder ds) (pairwise_inOrder ds) (sublist_inOrder ds)

end Order

theorem cleaned_ne_empty {text : String} (h : Text.trim text ≠ "") : cleaned text ≠ "" := by
  have hsolid : ∃ c ∈ text.toList, Text.isBlank c = false := by
    by_contra hblank
    push Not at hblank
    exact h (Text.trim_eq_empty fun c hc => by simpa using hblank c hc)
  obtain ⟨c, hc, hsolid⟩ := hsolid
  have hfield : c ∈ (fieldText text).toList := by
    rw [fieldText, String.toList_ofList]
    refine List.mem_map.mpr ⟨c, hc, if_neg ?_⟩
    simp only [Bool.or_eq_true, beq_iff_eq, or_assoc]
    rintro (rfl | rfl | rfl) <;> exact absurd hsolid (by decide)
  intro hempty
  have hmem := Text.mem_trim hfield hsolid
  rw [← cleaned, hempty] at hmem
  exact List.not_mem_nil hmem

/-- An exchange file of definitions that have names is read back without warnings, as many of them as a word
can count: each comes back once, in the stable order by groups and names as they are, with its token, its
kind and its visibility, and with its texts cleaned. -/
theorem read_write_ordered (now : Instant) (ds : List Definition) (hnames : ∀ d ∈ ds, Text.trim d.name ≠ "")
    (hlength : ds.length < Number.wordLimit) :
    read now (write ds) = .ok ((ds.mergeSort comesBefore).map (readBack now), []) := by
  rw [← inOrder_eq_mergeSort]
  exact read_write_inOrder now (fun d hd => cleaned_ne_empty (hnames d hd)) hlength

/-- Two groups whose labels are cleaned to the same one, and two definitions of one name. -/
def twinDefinitions : List Definition :=
  [{ identity := ⟨1⟩, name := "b", kind := .text, group := "G\n", createdAt := ⟨0, 0⟩ },
    { identity := ⟨2⟩, name := "a\tb\r", kind := .length, group := "G", visible := false
      category := some "\n", description := some "one\r\ntwo", formula := some "1", createdAt := ⟨0, 0⟩ },
    { identity := ⟨3⟩, name := "b", kind := .real, group := "G\n", createdAt := ⟨0, 0⟩ }]

theorem read_write_twins :
    (∀ d ∈ twinDefinitions, Text.trim d.name ≠ "") ∧ twinDefinitions.length < Number.wordLimit ∧
      read ⟨1, 0⟩ (write twinDefinitions) = .ok (
        [{ identity := ⟨2⟩, name := "a b", kind := .length, group := "G", visible := false
           description := some "one  two", createdAt := ⟨1, 0⟩ },
          { identity := ⟨1⟩, name := "b", kind := .text, group := "G", createdAt := ⟨1, 0⟩ },
          { identity := ⟨3⟩, name := "b", kind := .real, group := "G", createdAt := ⟨1, 0⟩ }], []) := by
  have hnames : ∀ d ∈ twinDefinitions, Text.trim d.name ≠ "" := by decide
  have hlength : twinDefinitions.length < Number.wordLimit := by decide
  have hback : (twinDefinitions.mergeSort comesBefore).map (readBack ⟨1, 0⟩) =
      [{ identity := ⟨2⟩, name := "a b", kind := .length, group := "G", visible := false
         description := some "one  two", createdAt := ⟨1, 0⟩ },
        { identity := ⟨1⟩, name := "b", kind := .text, group := "G", createdAt := ⟨1, 0⟩ },
        { identity := ⟨3⟩, name := "b", kind := .real, group := "G", createdAt := ⟨1, 0⟩ }] := by
    cbv
  refine ⟨hnames, hlength, ?_⟩
  rw [read_write_ordered ⟨1, 0⟩ twinDefinitions hnames hlength, hback]

end Parametric.SharedFile
