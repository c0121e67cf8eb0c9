import Parametric.Proofs.Formula.Mentions

/-!
# Texts of respelled formulas

Names of one key are written in texts of which none is the beginning of another one. So the text of a formula
tells how its names are spelled.
-/

namespace Parametric.Formula

/-! ## Texts of names -/

theorem isAscii_of_isPlainChar {c : Char} (h : isPlainChar c) : c.toNat < 128 := by
  simp only [isPlainChar, Bool.or_eq_true, beq_iff_eq] at h
  rcases h with h | rfl
  · have hbounds := isAlphanum_bounds h
    omega
  · decide

theorem length_keyOf_of_isWord {name : String} (h : isWord name) : (keyOf name).length = name.length :=
  length_keyOf (fun c hc => isAscii_of_isPlainChar (isPlainChar_of_isWord h c hc)) fun c hc =>
    isBlank_of_isPlainChar (isPlainChar_of_isWord h c hc)

theorem toList_nameText (name : String) :
    (nameText name).toList = if isPlainName name then name.toList else '[' :: (name.toList ++ [']']) := by
  unfold nameText
  split <;> simp

theorem append_ne_bracketed {name : String} (h : isPlainName name) (rest text : List Char) :
    name.toList ++ rest ≠ '[' :: text := by
  intro heq
  have hword := isWord_of_isPlainName h
  have hplain := isPlainChar_of_isWord hword
  unfold isWord at hword
  cases hname : name.toList with
  | nil => simp [hname] at hword
  | cons c others =>
    rw [hname, List.cons_append, List.cons_eq_cons] at heq
    have hc := hplain c (hname ▸ List.mem_cons_self)
    rw [heq.1] at hc
    exact absurd hc (by decide)

/-- Of the names of one key, the text of a name is not the beginning of the text of another one. -/
theorem nameText_append_inj {a b : String} {rest rest' : List Char} (hkey : keyOf a = keyOf b) (hfits : FitsTrimmed a)
    (h : (nameText a).toList ++ rest = (nameText b).toList ++ rest') : a = b ∧ rest = rest' := by
  have hfits' : FitsTrimmed b := by
    rw [Expr.fitsTrimmed_iff, ← hkey, ← Expr.fitsTrimmed_iff]
    exact hfits
  have hclose : ∀ {name : String}, FitsTrimmed name → ']' ∉ name.toList := fun hname hmem =>
    hname.close_notMem (Text.mem_trim hmem (by decide))
  rw [toList_nameText, toList_nameText] at h
  by_cases ha : isPlainName a = true
  · rw [if_pos ha] at h
    by_cases hb : isPlainName b = true
    · rw [if_pos hb] at h
      have hlength : a.toList.length = b.toList.length := by
        rw [String.length_toList, String.length_toList, ← length_keyOf_of_isWord (isWord_of_isPlainName ha), hkey,
          length_keyOf_of_isWord (isWord_of_isPlainName hb)]
      obtain ⟨hname, hrest⟩ := List.append_inj h hlength
      exact ⟨String.toList_inj.mp hname, hrest⟩
    · rw [if_neg hb] at h
      exact absurd h (append_ne_bracketed ha rest _)
  · rw [if_neg ha] at h
    by_cases hb : isPlainName b = true
    · rw [if_pos hb] at h
      exact absurd h.symm (append_ne_bracketed hb rest' _)
    · rw [if_neg hb] at h
      simp only [List.cons_append, List.append_assoc, List.cons.injEq, true_and] at h
      have hname := congrArg (List.takeWhile (· != ']')) h
      rw [takeWhile_bne (hclose hfits), takeWhile_bne (hclose hfits')] at hname
      rw [hname] at h
      exact ⟨String.toList_inj.mp hname, (List.cons.inj (List.append_cancel_left h)).2⟩

/-! ## Spellings -/

namespace Expr

variable {ν : Type}

/-- Names of one key get one spelling, so the first of them can speak for all. -/
theorem apply_ofNames {spelling? : String → Option String} (h : ∀ a b, keyOf a = keyOf b → spelling? a = spelling? b)
    {e : Expr ν} {name : String} (hname : name ∈ e.names) :
    (Spellings.ofNames spelling? e.references).apply name = (spelling? name).getD name := by
  rw [Spellings.apply]
  cases hlookup : (Spellings.ofNames spelling? e.references).lookup (keyOf name) with
  | some spelled =>
    obtain ⟨other, -, hkey, hspelled⟩ := exists_of_lookup_ofNames hlookup
    rw [h name other hkey.symm, hspelled]
  | none =>
    obtain ⟨first, hfirst, hkey⟩ : ∃ first ∈ e.references, keyOf first = keyOf name :=
      List.mem_map.mp (mem_keys_distinctNames.mpr (List.mem_map_of_mem hname))
    cases hspelled : spelling? name with
    | none => rfl
    | some spelled =>
      have hmem : (keyOf name, spelled) ∈ Spellings.ofNames spelling? e.references :=
        List.mem_filterMap.mpr ⟨first, hfirst, by rw [h first name hkey, hspelled, ← hkey]; rfl⟩
      have hne := List.lookup_eq_none_iff.mp hlookup _ hmem
      simp at hne

mutual
theorem mapNames_congr {f g : String → String} :
    {e : Expr ν} → (∀ name ∈ e.names, f name = g name) → e.mapNames f = e.mapNames g
  | .number _, _ | .text _, _ | .boolean _, _ => rfl
  | .reference name, h => congrArg Expr.reference (h name (List.mem_singleton_self name))
  | .negate operand, h => congrArg Expr.negate (mapNames_congr (e := operand) h)
  | .binary op lhs rhs, h => by
    obtain ⟨hl, hr⟩ := List.forall_mem_append.mp h
    rw [mapNames, mapNames_congr hl, mapNames_congr hr, mapNames]
  | .call function args, h => congrArg (Expr.call function) (mapNamesAll_congr h)
  | .group inner, h => congrArg Expr.group (mapNames_congr (e := inner) h)

theorem mapNamesAll_congr {f g : String → String} :
    {args : List (Expr ν)} → (∀ name ∈ namesAll args, f name = g name) → mapNamesAll f args = mapNamesAll g args
  | [], _ => rfl
  | e :: rest, h => by
    obtain ⟨he, hrest⟩ := List.forall_mem_append.mp h
    rw [mapNamesAll, mapNames_congr he, mapNamesAll_congr hrest, mapNamesAll]
end

/-! ## Texts of formulas -/

variable [Numeral ν]

@[simp] theorem precedence?_mapNames (f : String → String) (e : Expr ν) :
    (e.mapNames f).precedence? = e.precedence? := by
  cases e with
  | group inner => exact precedence?_mapNames f inner
  | _ => rfl

omit [Numeral ν] in
theorem ungrouped_mapNames (f : String → String) (e : Expr ν) :
    (e.mapNames f).ungrouped = e.ungrouped.mapNames f := by
  cases e with
  | group inner => exact ungrouped_mapNames f inner
  | _ => rfl

@[simp] theorem isLooserThan_mapNames (f : String → String) (e : Expr ν) (level : Nat) :
    (e.mapNames f).isLooserThan level = e.isLooserThan level := by
  rw [isLooserThan, precedence?_mapNames, isLooserThan]

omit [Numeral ν] in
@[simp] theorem continuesChain_mapNames (f : String → String) (op : BinaryOperator) (rhs : Expr ν) :
    continuesChain op (rhs.mapNames f) = continuesChain op rhs := by
  unfold continuesChain
  rw [ungrouped_mapNames]
  cases rhs.ungrouped with
  | binary inner _ _ => cases op <;> cases inner <;> rfl
  | _ => cases op <;> rfl

@[simp] theorem needsParensLeft_mapNames (f : String → String) (op : BinaryOperator) (lhs : Expr ν) :
    needsParensLeft op (lhs.mapNames f) = needsParensLeft op lhs := by
  simp only [needsParensLeft, isLooserThan_mapNames]

@[simp] theorem needsParensRight_mapNames (f : String → String) (op : BinaryOperator) (rhs : Expr ν) :
    needsParensRight op (rhs.mapNames f) = needsParensRight op rhs := by
  simp only [needsParensRight, isLooserThan_mapNames, continuesChain_mapNames]

variable {f g : String → String} {style : Style} {text text' : String} {rest rest' : List Char}

theorem parenthesized_append_inj {P : Prop} (needed : Bool)
    (hinj : ∀ rest rest' : List Char, text.toList ++ rest = text'.toList ++ rest' → P ∧ rest = rest')
    (h : (parenthesized needed text).toList ++ rest = (parenthesized needed text').toList ++ rest') :
    P ∧ rest = rest' := by
  cases needed with
  | false => exact hinj rest rest' h
  | true =>
    simp only [parenthesized, if_true, String.toList_append, List.append_assoc, List.append_cancel_left_eq] at h
    obtain ⟨hsame, hrest⟩ := hinj _ _ h
    exact ⟨hsame, List.append_cancel_left hrest⟩

mutual
/-- Where a formula ends and how its names are spelled can be told from its text, if the keys of the names are known. -/
theorem render_append_inj (style : Style) : (e : Expr ν) →
    (∀ name ∈ e.names, FitsTrimmed (f name) ∧ keyOf (f name) = keyOf (g name)) → ∀ rest rest' : List Char,
    ((e.mapNames f).render style).toList ++ rest = ((e.mapNames g).render style).toList ++ rest' →
      e.mapNames f = e.mapNames g ∧ rest = rest'
  | .number _, _, _, _, h | .text _, _, _, _, h | .boolean _, _, _, _, h => ⟨rfl, List.append_cancel_left h⟩
  | .reference name, hnames, _, _, h => by
    obtain ⟨hfits, hkey⟩ := hnames name (List.mem_singleton_self name)
    obtain ⟨hname, hrest⟩ := nameText_append_inj hkey hfits h
    exact ⟨congrArg Expr.reference hname, hrest⟩
  | .negate operand, hnames, rest, rest', h => by
    simp only [mapNames, render, String.toList_append, List.append_assoc, isLooserThan_mapNames] at h
    obtain ⟨hoperand, hrest⟩ := parenthesized_append_inj _ (render_append_inj style operand hnames) (List.append_cancel_left h)
    exact ⟨congrArg Expr.negate hoperand, hrest⟩
  | .binary op lhs rhs, hnames, rest, rest', h => by
    obtain ⟨hl, hr⟩ := List.forall_mem_append.mp hnames
    simp only [mapNames, render, String.toList_append, List.append_assoc, needsParensLeft_mapNames,
      needsParensRight_mapNames] at h
    obtain ⟨hlhs, h⟩ := parenthesized_append_inj _ (render_append_inj style lhs hl) h
    obtain ⟨hrhs, hrest⟩ := parenthesized_append_inj _ (render_append_inj style rhs hr) (List.append_cancel_left h)
    exact ⟨congrArg₂ (Expr.binary op) hlhs hrhs, hrest⟩
  | .call function args, hnames, rest, rest', h => by
    simp only [mapNames, render, String.toList_append, List.append_assoc, List.append_cancel_left_eq] at h
    obtain ⟨hargs, hrest⟩ := renderArgs_append_inj style args hnames _ _ h
    exact ⟨congrArg (Expr.call function) hargs, List.append_cancel_left hrest⟩
  | .group inner, hnames, rest, rest', h => by
    obtain ⟨hinner, hrest⟩ := render_append_inj style inner hnames rest rest' h
    exact ⟨congrArg Expr.group hinner, hrest⟩

theorem renderArgs_append_inj (style : Style) : (args : List (Expr ν)) →
    (∀ name ∈ namesAll args, FitsTrimmed (f name) ∧ keyOf (f name) = keyOf (g name)) → ∀ rest rest' : List Char,
    (renderArgs style (mapNamesAll f args)).toList ++ rest = (renderArgs style (mapNamesAll g args)).toList ++ rest' →
      mapNamesAll f args = mapNamesAll g args ∧ rest = rest'
  | [], _, _, _, h => ⟨rfl, List.append_cancel_left h⟩
  | [arg], hnames, rest, rest', h => by
    obtain ⟨harg, hrest⟩ := render_append_inj style arg (List.forall_mem_append.mp hnames).1 rest rest' h
    exact ⟨congrArg ([·]) harg, hrest⟩
  | arg :: second :: others, hnames, rest, rest', h => by
    obtain ⟨hfirst, hothers⟩ := List.forall_mem_append.mp hnames
    simp only [mapNamesAll, renderArgs, String.toList_append, List.append_assoc] at h
    obtain ⟨harg, h⟩ := render_append_inj style arg hfirst _ _ h
    obtain ⟨hrest, hend⟩ := renderArgs_append_inj style (second :: others) hothers rest rest' (List.append_cancel_left h)
    exact ⟨congrArg₂ List.cons harg hrest, hend⟩
end

/-- The text of a formula tells how its names are spelled. -/
theorem mapNames_eq_of_render_eq {e : Expr ν}
    (hnames : ∀ name ∈ e.names, FitsTrimmed (f name) ∧ keyOf (f name) = keyOf (g name))
    (h : (e.mapNames f).render style = (e.mapNames g).render style) : e.mapNames f = e.mapNames g :=
  (render_append_inj style e hnames [] [] (by rw [h])).1

end Expr

end Parametric.Formula
