import Parametric.Proofs.State.Identities

/-!
# Tokens while entries are staged

Staging never takes a token away from a name, and it gives a token that an entry brings along to a name only if no
other one has it. So an entry that comes back after its batch passes exactly if it passed before and can still have
its token.
-/

namespace Parametric

/-! ## Names with a token -/

namespace Registry

/-- A definition with a token is registered under a key. -/
def Bears (r : Registry) (key : String) (token : Identity) : Prop :=
  ∃ d, r.table.get? key = some d ∧ d.identity = token

/-- A key can have a token: nothing has it, or the key itself does and comes first of all that have it. -/
def Grants (r : Registry) (key : String) (token : Identity) : Prop :=
  ∀ other, r.Bears other token → r.Bears key token ∧ key ≤ other

variable {r : Registry} {d : Definition} {key : String} {token other : Identity} {e : CheckedEntry}

theorem Bears.eq (h : r.Bears key token) (h' : r.Bears key other) : token = other := by
  obtain ⟨d, hd, rfl⟩ := h
  obtain ⟨d', hd', rfl⟩ := h'
  rw [Option.some.inj (hd.symm.trans hd')]

theorem bears_put : (r.put d).Bears key token ↔ if key = d.key then d.identity = token else r.Bears key token := by
  rw [Bears, put, SortedMap.get?_insert]
  split <;> simp [Bears]

theorem Keyed.le_of_ownerOf? (hk : r.Keyed) (h : r.ownerOf? token = some d) :
    r.Bears d.key token ∧ ∀ key, r.Bears key token → d.key ≤ key := by
  obtain ⟨htoken, init, tail, hsplit, hinit⟩ := List.find?_eq_some_iff_append.mp h
  rw [beq_iff_eq] at htoken
  have hget := (mem_definitions_iff hk).mp (List.mem_of_find?_eq_some h)
  refine ⟨⟨d, hget, htoken⟩, fun key ⟨d', hd', htoken'⟩ => ?_⟩
  obtain rfl : d'.key = key := hk hd'
  have hmem : d' ∈ init ++ d :: tail := hsplit ▸ (mem_definitions_iff hk).mpr hd'
  have hsorted : (r.definitions.map (·.key)).Pairwise (· < ·) := hk.keys_definitions ▸ r.table.keys_pairwise
  rw [hsplit, List.map_append, List.map_cons, List.pairwise_append, List.pairwise_cons] at hsorted
  rcases List.mem_append.mp hmem with hbefore | hafter
  · exact absurd htoken' (by simpa using hinit d' hbefore)
  · rcases List.mem_cons.mp hafter with rfl | hafter
    · exact le_refl _
    · exact le_of_lt (hsorted.2.1.1 _ (List.mem_map_of_mem hafter))

/-- An entry keeps clear of the tokens of others if its name can have its token. -/
theorem Keyed.tokenOwner?_eq_none_iff (hk : r.Keyed) :
    e.tokenOwner? r = none ↔ ∀ token, e.identity = some token → r.Grants (keyOf e.name) token := by
  cases htoken : e.identity with
  | none => simp [CheckedEntry.tokenOwner?, htoken]
  | some token =>
    rw [CheckedEntry.tokenOwner?_eq_none_iff htoken]
    constructor
    · rintro hown _ ⟨⟩ key hkey
      cases hfound : r.ownerOf? token with
      | none =>
        obtain ⟨d, hd, hidentity⟩ := hkey
        obtain rfl : keyOf d.name = key := hk hd
        exact absurd hidentity (identity_ne_of_ownerOf? hfound hd)
      | some owner =>
        obtain ⟨hbears, hle⟩ := hk.le_of_ownerOf? hfound
        rw [hown owner hfound] at hbears hle
        exact ⟨hbears, hle key hkey⟩
    · intro h owner hfound
      obtain ⟨hbears, hle⟩ := hk.le_of_ownerOf? hfound
      obtain ⟨hown, hge⟩ := h token rfl owner.key hbears
      exact le_antisymm (hle _ hown) hge

theorem Grants.not_bears (h : r.Grants key token) (hnone : r.table.get? key = none) (other : String) :
    ¬r.Bears other token := by
  intro hother
  obtain ⟨d, hd, -⟩ := (h other hother).1
  rw [hnone] at hd
  cases hd

end Registry

/-! ## Tokens that are drawn -/

/-- None of the next tokens of a supply is a given one. -/
def TokenSupply.Spares (supply : TokenSupply) (count : Nat) (token : Identity) : Prop :=
  ∀ n < count, supply.token (supply.drawn + n) ≠ token

namespace Staging

variable {settings : Settings} {now : Instant} {s : Staging} {e : CheckedEntry} {rest : List CheckedEntry} {count : Nat}
  {token : Identity} {key other : String}

theorem supply_stage (s : Staging) (settings : Settings) (now : Instant) (e : CheckedEntry) :
    (s.stage settings now e).supply = s.supply ∨ (s.stage settings now e).supply = s.supply.draw.2 := by
  simp only [stage]
  cases e.stagingError? settings s with
  | some error => exact .inl rfl
  | none =>
    simp only [write]
    split
    · split <;> exact .inl rfl
    · cases e.identity with
      | none => exact .inr rfl
      | some token => exact .inl rfl

theorem spares_stage (h : s.supply.Spares (count + 1) token) : (s.stage settings now e).supply.Spares count token := by
  intro n hn
  rcases s.supply_stage settings now e with hsupply | hsupply
  · rw [hsupply]
    exact h n (Nat.lt_succ_of_lt hn)
  · rw [hsupply, TokenSupply.draw, Nat.add_right_comm, Nat.add_assoc]
    exact h (n + 1) (Nat.succ_lt_succ hn)

theorem spares_stageAll (h : s.supply.Spares (rest.length + count) token) :
    (rest.foldl (·.stage settings now ·) s).supply.Spares count token := by
  induction rest generalizing s with
  | nil => rwa [List.length_nil, Nat.zero_add] at h
  | cons e rest ih =>
    rw [List.length_cons, Nat.add_right_comm] at h
    exact ih (spares_stage h)

theorem supply_settle (s : Staging) (formulas : Formulas) : (s.settle formulas).supply = s.supply := by
  fun_induction settle s formulas with
  | case1 s hnone => rfl
  | case2 s e name others hfound _ ih => exact ih

theorem spares_ofEntries {state : State} {supply : TokenSupply} (h : supply.Spares (rest.length + count) token) :
    (ofEntries settings now state supply rest).supply.Spares count token := by
  rw [ofEntries, supply_settle]
  exact spares_stageAll h

/-! ## Tokens of staged entries -/

theorem keyed_stage (hk : s.registry.Keyed) : (s.stage settings now e).registry.Keyed := by
  simp only [stage]
  cases e.stagingError? settings s with
  | some error => exact hk
  | none =>
    simp only [write]
    split
    · split
      · exact hk
      · exact hk.put _
    · exact hk.put _

/-- An entry that is staged brings its token to its name if that is new, and changes no other token. -/
theorem bears_stage (hk : s.registry.Keyed) (hspares : s.supply.Spares (count + 1) token) :
    (s.stage settings now e).registry.Bears key token ↔ s.registry.Bears key token ∨
      e.stagingError? settings s = none ∧ s.registry.get? e.name = none ∧ key = keyOf e.name ∧ e.identity = some token := by
  cases herror : e.stagingError? settings s with
  | some error => simp [stage, herror]
  | none =>
    have hstage : (s.stage settings now e).registry = (s.write settings now e).registry := by
      simp only [stage, herror]
    rw [hstage]
    cases hget : s.registry.get? e.name with
    | none =>
      -- a drawn token is not `token`, which the supply spares
      have hidentity : e.identity.getD s.supply.draw.1 = token ↔ e.identity = some token := by
        cases e.identity with
        | none => simpa [TokenSupply.draw] using hspares 0 (Nat.succ_pos count)
        | some own => simp
      have hnone : ¬s.registry.Bears (keyOf e.name) token := by
        rintro ⟨d, hd, -⟩
        exact Option.some_ne_none d (hd.symm.trans hget)
      have hkey : (e.definition settings now (e.identity.getD s.supply.draw.1)).key = keyOf e.name := rfl
      rw [registry_write_of_none hget, Registry.bears_put, hkey]
      split
      · rename_i heq
        rw [heq, or_iff_right hnone]
        simpa [CheckedEntry.definition] using hidentity
      · rename_i hne
        simp [hne]
    | some d =>
      simp only [reduceCtorEq, false_and, and_false, or_false]
      cases hagrees : (e.updated settings d).agreesWith d with
      | true => rw [write_of_agrees hget hagrees]
      | false =>
        have hkey : (e.updated settings d).key = keyOf e.name := hk.key_eq (d := d) hget
        rw [write_of_changed hget hagrees, Registry.bears_put, hkey]
        split
        · rename_i heq
          rw [heq]
          refine ⟨fun htoken => ⟨d, hget, htoken⟩, fun hbears => ?_⟩
          obtain ⟨d', hd', htoken⟩ := hbears
          obtain rfl : d = d' := Option.some.inj (hget.symm.trans hd')
          exact htoken
        · rfl

theorem bears_stageAll_of_bears (hk : s.registry.Keyed) (hspares : s.supply.Spares rest.length token)
    (h : s.registry.Bears key token) : (rest.foldl (·.stage settings now ·) s).registry.Bears key token := by
  induction rest generalizing s with
  | nil => exact h
  | cons e rest ih => exact ih (keyed_stage hk) (spares_stage hspares) ((bears_stage hk hspares).mpr (.inl h))

theorem grants_of_passes (hk : s.registry.Keyed) (h : e.stagingError? settings s = none) (htoken : e.identity = some token) :
    s.registry.Grants (keyOf e.name) token :=
  hk.tokenOwner?_eq_none_iff.mp (stagingError?_eq_none_iff.mp h).2.2 token htoken

/-- Once a name has a token, no other name is given it. -/
theorem bears_of_bears_stageAll (hk : s.registry.Keyed) (hspares : s.supply.Spares rest.length token)
    (hother : s.registry.Bears other token) (h : (rest.foldl (·.stage settings now ·) s).registry.Bears key token) :
    s.registry.Bears key token := by
  induction rest generalizing s with
  | nil => exact h
  | cons e rest ih =>
    have hstep := ih (keyed_stage hk) (spares_stage hspares) ((bears_stage hk hspares).mpr (.inl hother)) h
    rcases (bears_stage hk hspares).mp hstep with hbears | ⟨hpasses, hnone, -, htoken⟩
    · exact hbears
    · exact absurd hother ((grants_of_passes hk hpasses htoken).not_bears hnone other)

namespace Tracks

variable {before : Registry} {entries : List CheckedEntry}

theorem bears_of_before (h : s.Tracks settings now before entries) (hbefore : before.Keyed)
    (hkey : before.Bears key token) : s.registry.Bears key token := by
  obtain ⟨d, hd, htoken⟩ := hkey
  obtain rfl : keyOf d.name = key := hbefore hd
  obtain ⟨d', hd', hlabel⟩ := h.label_of_before hd
  have hidentity : d'.identity = d.identity := congrArg Prod.snd hlabel
  exact ⟨d', hd', hidentity.trans htoken⟩

theorem bears_of_undo {staged : StagedEntry} (h : s.Tracks settings now before entries) (hbefore : before.Keyed)
    (hmem : staged ∈ s.staged) (hkey : (Staging.undo s.registry staged).Bears key token) : s.registry.Bears key token := by
  have hwritten := h.written staged hmem
  rw [Staging.undo, h.previous staged hmem] at hkey
  cases hd : before.get? staged.entry.name with
  | none =>
    rw [hd] at hkey
    obtain ⟨d, hd, htoken⟩ := hkey
    rw [Registry.remove, SortedMap.get?_erase] at hd
    split at hd
    · cases hd
    · exact ⟨d, hd, htoken⟩
  | some d =>
    rw [hd] at hkey hwritten
    obtain ⟨d', hd', hlabel⟩ := label_of_writes hwritten
    have hidentity : d'.identity = d.identity := congrArg Prod.snd hlabel
    rw [Registry.bears_put, hbefore.key_eq hd] at hkey
    split at hkey
    · rename_i heq
      exact heq ▸ ⟨d', hd', hidentity.trans hkey⟩
    · exact hkey

theorem bears_of_settle (h : s.Tracks settings now before entries) (hbefore : before.Keyed) (formulas : Formulas)
    (hkey : (s.settle formulas).registry.Bears key token) : s.registry.Bears key token := by
  fun_induction Staging.settle s formulas with
  | case1 s hnone => exact hkey
  | case2 s e name others hfound _ ih =>
    obtain ⟨init, tail, hstaged, rfl, -⟩ := takeFirst?_eq_some hfound
    have hmem : e ∈ s.staged := by simp [hstaged]
    exact h.bears_of_undo hbefore hmem (ih (h.undo hbefore hstaged rfl rfl rfl) hkey)

end Tracks

end Staging

/-! ## Entries that come back -/

/-- An entry that comes back asks for the same as before, up to the case of names. -/
structure CheckedEntry.RecursAs (e again : CheckedEntry) : Prop where
  proposal : again.proposal = e.proposal
  kind : again.kind = e.kind
  identity : again.identity = e.identity
  key : keyOf again.name = keyOf e.name
  length : again.name.length = e.name.length
  keys : again.formula.map (·.names.map keyOf) = e.formula.map (·.names.map keyOf)

namespace Staging

/-- What a token has to do with entries that are staged again, after their batch has left a registry: names that had
the token at that moment have it, and so do those to which it was left, but no others. -/
structure Repeats (left : Registry) (count : Nat) (token : Identity) (first again : Staging) : Prop where
  lower : ∀ key, first.registry.Bears key token → again.registry.Bears key token
  upper : ∀ key, again.registry.Bears key token → left.Bears key token ∨ first.registry.Bears key token
  left : ∀ key, left.Bears key token → again.registry.Bears key token
  spares : first.supply.Spares count token
  sparesAgain : again.supply.Spares count token

variable {settings : Settings} {now later : Instant} {left : Registry} {first again : Staging} {e e' : CheckedEntry}
  {rest : List CheckedEntry} {token : Identity} {key : String}

namespace Repeats

theorem grants_of_again (h : Repeats left rest.length token first again) (hk : first.registry.Keyed)
    (hleft : left.Bears key token → (rest.foldl (·.stage settings now ·) first).registry.Bears key token)
    (hagain : again.registry.Grants key token) : first.registry.Grants key token := by
  intro other hother
  obtain ⟨hown, hle⟩ := hagain other (h.lower other hother)
  refine ⟨?_, hle⟩
  rcases h.upper key hown with hkey | hkey
  · exact bears_of_bears_stageAll hk h.spares hother (hleft hkey)
  · exact hkey

theorem grants_again_iff {count : Nat} (h : Repeats left count token first again)
    (hregistered : first.registry.Bears key token → left.Bears key token) (hfirst : first.registry.Grants key token) :
    again.registry.Grants key token ↔ left.Grants key token := by
  constructor
  · intro hagain other hother
    obtain ⟨hown, hle⟩ := hagain other (h.left other hother)
    exact ⟨(h.upper key hown).elim id hregistered, hle⟩
  · intro hgrants other hother
    rcases h.upper other hother with hother | hother
    · exact ⟨h.left key (hgrants other hother).1, (hgrants other hother).2⟩
    · exact ⟨h.lower key (hfirst other hother).1, (hfirst other hother).2⟩

end Repeats

/-- How far staging of entries has come the first time and how far it has come again, before the rest of them. -/
structure Alongside (settings : Settings) (now : Instant) (left : Registry) (rest : List CheckedEntry)
    (first again : Staging) : Prop where
  keyed : first.registry.Keyed
  keyedAgain : again.registry.Keyed
  seen : again.seen = first.seen
  registered : ∀ name, keyOf name ∉ first.seen → ∀ token, first.registry.Bears (keyOf name) token →
    left.Bears (keyOf name) token
  unseen : ∀ name, keyOf name ∉ first.seen → again.registry.get? name = left.get? name
  lasting : ∀ key token, left.Bears key token → (rest.foldl (·.stage settings now ·) first).registry.Bears key token

section New

variable (h : Alongside settings now left (e :: rest) first again)
  (hspares : first.supply.Spares (rest.length + 1) token) (hpasses : e.stagingError? settings first = none)
  (hnone : first.registry.get? e.name = none) (hidentity : e.identity = some token)
include h hspares hpasses hnone hidentity

theorem Alongside.bears_left_of_new {d : Definition} (hget : left.get? e.name = some d) :
    left.Bears (keyOf e.name) token := by
  have hkey : (first.stage settings now e).registry.Bears (keyOf e.name) token :=
    (bears_stage h.keyed hspares).mpr (.inr ⟨hpasses, hnone, rfl, hidentity⟩)
  have hgiven : ((e :: rest).foldl (·.stage settings now ·) first).registry.Bears (keyOf e.name) token := by
    rw [List.foldl_cons]
    exact bears_stageAll_of_bears (keyed_stage h.keyed) (spares_stage hspares) hkey
  exact ⟨d, hget, (h.lasting (keyOf e.name) d.identity ⟨d, hget, rfl⟩).eq hgiven⟩

/-- The token of a new name was left to no other name, also if the name was taken back. -/
theorem Alongside.tokenOwner?_of_new (hleft : left.Keyed) : e.tokenOwner? left = none := by
  have hkey : (first.stage settings now e).registry.Bears (keyOf e.name) token :=
    (bears_stage h.keyed hspares).mpr (.inr ⟨hpasses, hnone, rfl, hidentity⟩)
  refine hleft.tokenOwner?_eq_none_iff.mpr fun own hown other hother => ?_
  obtain rfl : token = own := Option.some.inj (hidentity.symm.trans hown)
  have hother' := bears_of_bears_stageAll (keyed_stage h.keyed) (spares_stage hspares) hkey (h.lasting other token hother)
  rcases (bears_stage h.keyed hspares).mp hother' with hold | ⟨-, -, rfl, -⟩
  · exact absurd hold ((grants_of_passes h.keyed hpasses hidentity).not_bears hnone other)
  · exact ⟨hother, le_refl _⟩

end New

section Step

variable (h : Alongside settings now left (e :: rest) first again) (he : e.RecursAs e') (hleft : left.Keyed)
  (hrepeats : ∀ token, e.identity = some token → Repeats left (rest.length + 1) token first again)
include h he hleft hrepeats

/-- An entry passes again if it passed before and can have its token where its batch has left it. -/
theorem Alongside.passes_again_iff : e'.stagingError? settings again = none ↔
    e.stagingError? settings first = none ∧ e.tokenOwner? left = none := by
  rw [stagingError?_eq_none_iff, stagingError?_eq_none_iff, he.length, he.key, h.seen, and_assoc, and_assoc]
  refine and_congr_right fun _ => and_congr_right fun hseen => ?_
  rw [h.keyed.tokenOwner?_eq_none_iff, h.keyedAgain.tokenOwner?_eq_none_iff, hleft.tokenOwner?_eq_none_iff, he.identity,
    he.key]
  constructor
  · intro hagain
    have hfirst : ∀ token, e.identity = some token → first.registry.Grants (keyOf e.name) token := fun token htoken => by
      have hrepeat : Repeats left (e :: rest).length token first again := hrepeats token htoken
      exact hrepeat.grants_of_again h.keyed (h.lasting _ token) (hagain token htoken)
    exact ⟨hfirst, fun token htoken => ((hrepeats token htoken).grants_again_iff (h.registered e.name hseen token)
      (hfirst token htoken)).mp (hagain token htoken)⟩
  · rintro ⟨hfirst, hgrants⟩ token htoken
    exact ((hrepeats token htoken).grants_again_iff (h.registered e.name hseen token) (hfirst token htoken)).mpr
      (hgrants token htoken)

theorem Repeats.stage (htoken : Repeats left (rest.length + 1) token first again) :
    Repeats left rest.length token (first.stage settings now e) (again.stage settings later e') := by
  have hfirst : ∀ key, (first.stage settings now e).registry.Bears key token ↔ first.registry.Bears key token ∨
      e.stagingError? settings first = none ∧ first.registry.get? e.name = none ∧ key = keyOf e.name ∧
        e.identity = some token := fun key => bears_stage h.keyed htoken.spares
  have hagain : ∀ key, (again.stage settings later e').registry.Bears key token ↔ again.registry.Bears key token ∨
      e'.stagingError? settings again = none ∧ again.registry.get? e'.name = none ∧ key = keyOf e'.name ∧
        e'.identity = some token := fun key => bears_stage h.keyedAgain htoken.sparesAgain
  constructor
  case spares => exact spares_stage htoken.spares
  case sparesAgain => exact spares_stage htoken.sparesAgain
  case left => exact fun key hkey => (hagain key).mpr (.inl (htoken.left key hkey))
  case lower =>
    intro key hkey
    refine (hagain key).mpr ?_
    rcases (hfirst key).mp hkey with hkey' | ⟨hpasses, hnone, rfl, hidentity⟩
    · exact .inl (htoken.lower key hkey')
    · obtain ⟨-, hseen, -⟩ := stagingError?_eq_none_iff.mp hpasses
      cases hget : left.get? e.name with
      | some d => exact .inl (htoken.left _ (h.bears_left_of_new htoken.spares hpasses hnone hidentity hget))
      | none =>
        -- The name was taken back, and its token with it, so it is given the token again.
        have hfree := h.tokenOwner?_of_new htoken.spares hpasses hnone hidentity hleft
        have hpassesAgain := (h.passes_again_iff he hleft hrepeats).mpr ⟨hpasses, hfree⟩
        refine .inr ⟨hpassesAgain, ?_, he.key.symm, he.identity.trans hidentity⟩
        rw [Registry.get?_congr he.key, h.unseen e.name hseen, hget]
  case upper =>
    intro key hkey
    rcases (hagain key).mp hkey with hkey | ⟨hpasses, hnone, rfl, hidentity⟩
    · exact (htoken.upper key hkey).imp_right fun hkey => (hfirst key).mpr (.inl hkey)
    · obtain ⟨hpasses, -⟩ := (h.passes_again_iff he hleft hrepeats).mp hpasses
      obtain ⟨-, hseen, -⟩ := stagingError?_eq_none_iff.mp hpasses
      rw [Registry.get?_congr he.key, h.unseen e.name hseen] at hnone
      refine .inr ((hfirst _).mpr (.inr ⟨hpasses, ?_, he.key, he.identity.symm.trans hidentity⟩))
      cases hget : first.registry.get? e.name with
      | none => rfl
      | some d =>
        obtain ⟨d', hd', -⟩ := h.registered e.name hseen d.identity ⟨d, hget, rfl⟩
        exact absurd (hd'.symm.trans hnone) (Option.some_ne_none d')

end Step

variable {before : Registry} {entries repeated rest' : List CheckedEntry}

/-- Of the entries that passed before, those pass again that can have their tokens where their batch has left them. -/
theorem forall₂_passing (hrest : List.Forall₂ CheckedEntry.RecursAs rest rest')
    (hfirst : first.Tracks settings now before entries) (hagain : again.Tracks settings later left repeated)
    (hentries : ∀ e ∈ rest, e ∈ entries) (hrepeated : ∀ e ∈ rest', e ∈ repeated) (hleft : left.Keyed)
    (hbefore : ∀ key token, before.Bears key token → left.Bears key token) (hseen : again.seen = first.seen)
    (hlasting : ∀ key token, left.Bears key token → (rest.foldl (·.stage settings now ·) first).registry.Bears key token)
    (hrepeats : ∀ e ∈ rest, ∀ token, e.identity = some token → Repeats left rest.length token first again) :
    List.Forall₂ CheckedEntry.RecursAs ((first.passing settings now rest).filter fun e => (e.tokenOwner? left).isNone)
      (again.passing settings later rest') := by
  induction hrest generalizing first again with
  | nil => exact .nil
  | @cons e e' rest rest' he hrest ih =>
    rw [List.forall_mem_cons] at hentries hrepeated hrepeats
    have halong : Alongside settings now left (e :: rest) first again := by
      refine ⟨hfirst.keyed, hagain.keyed, hseen, fun name hname token hkey => ?_, fun name hname => ?_, hlasting⟩
      · refine hbefore _ token ?_
        obtain ⟨d, hd, htoken⟩ := hkey
        exact ⟨d, (hfirst.get?_of_not_seen hname).symm.trans hd, htoken⟩
      · exact hagain.get?_of_not_seen (hseen ▸ hname)
    have hseen' : (again.stage settings later e').seen = (first.stage settings now e).seen := by
      rw [seen_stage, seen_stage, seenAfter, seenAfter, he.length, he.key, hseen]
    have htail := ih (hfirst.stage hentries.1) (hagain.stage hrepeated.1) hentries.2 hrepeated.2 hseen' hlasting
      fun e'' he'' token htoken => (hrepeats.2 e'' he'' token htoken).stage halong he hleft hrepeats.1
    have hpasses := halong.passes_again_iff he hleft hrepeats.1
    cases herror : e.stagingError? settings first with
    | some error =>
      rw [herror] at hpasses
      cases herror' : e'.stagingError? settings again with
      | none => simp [herror'] at hpasses
      | some error' => simpa only [passing, herror, herror'] using htail
    | none =>
      rw [herror] at hpasses
      cases herror' : e'.stagingError? settings again with
      | none =>
        have hfree : e.tokenOwner? left = none := by simpa [herror'] using hpasses
        simpa [passing, herror, herror', hfree] using ⟨he, htail⟩
      | some error' =>
        have hfree : e.tokenOwner? left ≠ none := by simpa [herror'] using hpasses
        simpa [passing, herror, herror', hfree] using htail

end Staging

end Parametric
