import Mathlib.Data.List.Nodup
import Parametric.Creation.Staging
import Parametric.Proofs.Registry

/-!
# Staging

At every moment of staging, the registry is the one before the batch with exactly the staged
entries written to it, each under a key of its own.
-/

namespace Parametric

/-- What a staged entry has made of the definition that was registered under its name. -/
inductive StagedAs.Writes (settings : Settings) (now : Instant) (e : CheckedEntry) :
    StagedAs → Option Definition → Option Definition → Prop where
  | created (token : Identity) :
      StagedAs.created.Writes settings now e none (some (e.definition settings now token))
  | updated (d : Definition) (h : (e.updated settings d).agreesWith d = false) :
      StagedAs.updated.Writes settings now e (some d) (some (e.updated settings d))
  | skipped (d : Definition) (h : (e.updated settings d).agreesWith d = true) :
      StagedAs.skipped.Writes settings now e (some d) (some d)

theorem StagedAs.Writes.registered {settings : Settings} {now : Instant} {e : CheckedEntry}
    {outcome : StagedAs} {previous current : Option Definition}
    (h : outcome.Writes settings now e previous current) : ∃ d, current = some d := by
  cases h <;> exact ⟨_, rfl⟩

/-- How far staging has come from a registry. -/
structure Staging.Tracks (settings : Settings) (now : Instant) (before : Registry)
    (entries : List CheckedEntry) (s : Staging) : Prop where
  mem : ∀ e ∈ s.staged, e.entry ∈ entries
  keys_nodup : (s.staged.map fun e => keyOf e.entry.name).Nodup
  seen : ∀ e ∈ s.staged, keyOf e.entry.name ∈ s.seen
  previous : ∀ e ∈ s.staged, e.previous = before.get? e.entry.name
  written : ∀ e ∈ s.staged, e.outcome.Writes settings now e.entry (before.get? e.entry.name)
    (s.registry.get? e.entry.name)
  untouched : ∀ name, (∀ e ∈ s.staged, keyOf e.entry.name ≠ keyOf name) →
    s.registry.get? name = before.get? name
  keyed : s.registry.Keyed

namespace Staging

variable {settings : Settings} {now : Instant} {before : Registry} {entries : List CheckedEntry}
  {s s' : Staging}

theorem write_of_none {e : CheckedEntry} (settings : Settings) (now : Instant)
    (h : s.registry.get? e.name = none) :
    ∃ token supply, s.write settings now e =
      { s with
        registry := s.registry.put (e.definition settings now token)
        supply := supply
        staged := s.staged ++ [⟨e, .created, none⟩] } := by
  simp only [write, h]
  exact ⟨_, _, rfl⟩

theorem write_of_agrees {e : CheckedEntry} {d : Definition} (h : s.registry.get? e.name = some d)
    (hd : (e.updated settings d).agreesWith d = true) :
    s.write settings now e = { s with staged := s.staged ++ [⟨e, .skipped, some d⟩] } := by
  simp only [write, h, hd, ↓reduceIte]

theorem write_of_changed {e : CheckedEntry} {d : Definition} (h : s.registry.get? e.name = some d)
    (hd : (e.updated settings d).agreesWith d = false) :
    s.write settings now e =
      { s with
        registry := s.registry.put (e.updated settings d)
        staged := s.staged ++ [⟨e, .updated, some d⟩] } := by
  simp only [write, h, hd, Bool.false_eq_true, ↓reduceIte]

theorem label_of_writes {outcome : StagedAs} {d : Definition} {current : Option Definition}
    (h : outcome.Writes settings now e (some d) current) :
    ∃ d', current = some d' ∧ d'.label = d.label := by
  cases h with
  | updated => exact ⟨_, rfl, rfl⟩
  | skipped => exact ⟨d, rfl, rfl⟩

theorem Tracks.start (h : before.Keyed) (supply : TokenSupply) :
    Tracks settings now before entries { registry := before, supply := supply } where
  mem := by simp
  keys_nodup := List.nodup_nil
  seen := by simp
  previous := by simp
  written := by simp
  untouched := fun _ _ => rfl
  keyed := h

namespace Tracks

theorem entry_mem {cancelled : Bool} {e : StagedEntry}
    (h : s.Tracks settings now before (if cancelled then [] else entries)) (he : e ∈ s.staged) :
    e.entry ∈ entries := by
  have hmem := h.mem e he
  split at hmem
  · exact absurd hmem List.not_mem_nil
  · exact hmem

theorem push {e : StagedEntry} (h : s.Tracks settings now before entries) (he : e.entry ∈ entries)
    (hnew : keyOf e.entry.name ∉ s.seen) (hprevious : e.previous = before.get? e.entry.name)
    (hwritten : e.outcome.Writes settings now e.entry (before.get? e.entry.name)
      (s'.registry.get? e.entry.name))
    (hother : ∀ name, keyOf name ≠ keyOf e.entry.name →
      s'.registry.get? name = s.registry.get? name)
    (hkeyed : s'.registry.Keyed) (hstaged : s'.staged = s.staged ++ [e])
    (hseen : s'.seen = keyOf e.entry.name :: s.seen) : s'.Tracks settings now before entries := by
  have hne : ∀ e' ∈ s.staged, keyOf e'.entry.name ≠ keyOf e.entry.name := fun e' he' heq =>
    hnew (heq ▸ h.seen e' he')
  constructor
  case keyed => exact hkeyed
  case mem =>
    rw [hstaged, List.forall_mem_append]
    exact ⟨h.mem, by simpa using he⟩
  case keys_nodup =>
    rw [hstaged, List.map_append, List.nodup_append]
    refine ⟨h.keys_nodup, by simp, ?_⟩
    intro key hkey key' hkey'
    obtain ⟨e', he', rfl⟩ := List.mem_map.mp hkey
    rw [List.map_singleton, List.mem_singleton] at hkey'
    rw [hkey']
    exact hne e' he'
  case seen =>
    rw [hstaged, hseen, List.forall_mem_append]
    exact ⟨fun e' he' => List.mem_cons_of_mem _ (h.seen e' he'), by simp⟩
  case previous =>
    rw [hstaged, List.forall_mem_append]
    exact ⟨h.previous, by simpa using hprevious⟩
  case written =>
    rw [hstaged, List.forall_mem_append]
    refine ⟨fun e' he' => ?_, by simpa using hwritten⟩
    rw [hother _ (hne e' he')]
    exact h.written e' he'
  case untouched =>
    intro name hname
    rw [hstaged, List.forall_mem_append] at hname
    rw [hother name (hname.2 e List.mem_cons_self).symm, h.untouched name hname.1]

theorem get?_of_not_seen (h : s.Tracks settings now before entries) {name : String}
    (hnew : keyOf name ∉ s.seen) : s.registry.get? name = before.get? name :=
  h.untouched name fun e he heq => hnew (heq ▸ h.seen e he)

theorem label_of_before (h : s.Tracks settings now before entries) {name : String} {d : Definition}
    (hd : before.get? name = some d) : ∃ d', s.registry.get? name = some d' ∧ d'.label = d.label := by
  by_cases hany : ∃ e ∈ s.staged, keyOf e.entry.name = keyOf name
  · obtain ⟨e, he, hkey⟩ := hany
    have hwritten := h.written e he
    rw [Registry.get?_congr hkey, hd, Registry.get?_congr hkey] at hwritten
    exact label_of_writes hwritten
  · exact ⟨d, (h.untouched name fun e he hkey => hany ⟨e, he, hkey⟩).trans hd, rfl⟩

theorem name_of_new (h : s.Tracks settings now before entries) {name : String} {d : Definition}
    (hnone : before.get? name = none) (hd : s.registry.get? name = some d) :
    ∃ e ∈ s.staged, keyOf e.entry.name = keyOf name ∧ d.name = e.entry.name := by
  by_cases hany : ∃ e ∈ s.staged, keyOf e.entry.name = keyOf name
  · obtain ⟨e, he, hkey⟩ := hany
    have hwritten := h.written e he
    rw [Registry.get?_congr hkey, hnone, Registry.get?_congr hkey, hd] at hwritten
    refine ⟨e, he, hkey, ?_⟩
    generalize e.outcome = outcome at hwritten
    cases hwritten
    rfl
  · rw [h.untouched name fun e he hkey => hany ⟨e, he, hkey⟩, hnone] at hd
    cases hd

theorem write {e : CheckedEntry} (h : s.Tracks settings now before entries) (he : e ∈ entries)
    (hnew : keyOf e.name ∉ s.seen) :
    Tracks settings now before entries
      { s.write settings now e with seen := keyOf e.name :: s.seen } := by
  have hbefore := h.get?_of_not_seen hnew
  cases hget : s.registry.get? e.name with
  | none =>
      rw [hget] at hbefore
      obtain ⟨token, supply, hwrite⟩ := write_of_none settings now hget
      rw [hwrite]
      refine h.push (e := ⟨e, .created, none⟩) he hnew hbefore ?_ ?_
        (h.keyed.put (e.definition settings now token)) rfl rfl
      · rw [← hbefore, Registry.get?_put, if_pos (by rfl)]
        exact .created token
      · intro name hname
        exact Registry.get?_put.trans (if_neg hname)
  | some previous =>
      rw [hget] at hbefore
      have hkey : (e.updated settings previous).key = keyOf e.name :=
        h.keyed.key_eq (d := previous) hget
      cases hagrees : (e.updated settings previous).agreesWith previous with
      | true =>
          rw [write_of_agrees hget hagrees]
          refine h.push (e := ⟨e, .skipped, some previous⟩) he hnew hbefore ?_ (fun _ _ => rfl)
            h.keyed rfl rfl
          rw [← hbefore, hget]
          exact .skipped previous hagrees
      | false =>
          rw [write_of_changed hget hagrees]
          refine h.push (e := ⟨e, .updated, some previous⟩) he hnew hbefore ?_ ?_
            (h.keyed.put (e.updated settings previous)) rfl rfl
          · rw [← hbefore, Registry.get?_put, if_pos hkey.symm]
            exact .updated previous hagrees
          · intro name hname
            rw [Registry.get?_put, hkey]
            exact if_neg hname

theorem stage {e : CheckedEntry} (h : s.Tracks settings now before entries) (he : e ∈ entries) :
    (s.stage settings now e).Tracks settings now before entries := by
  simp only [Staging.stage]
  split
  · refine ⟨h.mem, h.keys_nodup, fun e' he' => ?_, h.previous, h.written, h.untouched, h.keyed⟩
    simp only [seenAfter]
    split
    · exact h.seen e' he'
    · exact List.mem_cons_of_mem _ (h.seen e' he')
  · rename_i hnone
    simp only [CheckedEntry.stagingError?] at hnone
    split at hnone
    · cases hnone
    · rename_i hlength
      split at hnone
      · cases hnone
      · rename_i hseen
        rw [seenAfter, if_neg hlength]
        exact h.write he (by simpa using hseen)

end Tracks

/-! ## Entries that are taken back -/

theorem takeFirst?_eq_some {α β : Type} {f : α → Option β} {l : List α} {a : α} {b : β}
    {rest : List α} (h : takeFirst? f l = some (a, b, rest)) :
    ∃ init tail, l = init ++ a :: tail ∧ rest = init ++ tail ∧ f a = some b := by
  induction l generalizing rest with
  | nil => simp [takeFirst?] at h
  | cons x xs ih =>
      simp only [takeFirst?] at h
      split at h
      · rename_i hx
        cases h
        exact ⟨[], xs, rfl, rfl, hx⟩
      · obtain ⟨⟨x', b', others⟩, hfound, heq⟩ := Option.map_eq_some_iff.mp h
        cases heq
        obtain ⟨init, tail, rfl, rfl, hf⟩ := ih hfound
        exact ⟨x :: init, tail, rfl, rfl, hf⟩

namespace Tracks

/-- An entry that is taken back leaves the definition that was there before. -/
theorem undo {e : StagedEntry} {init tail : List StagedEntry}
    (h : s.Tracks settings now before entries) (hbefore : before.Keyed)
    (hstaged : s.staged = init ++ e :: tail) (hrest : s'.staged = init ++ tail)
    (hregistry : s'.registry = Staging.undo s.registry e) (hseen : s'.seen = s.seen) :
    s'.Tracks settings now before entries := by
  have hsub : ∀ e' ∈ s'.staged, e' ∈ s.staged := by
    intro e' he'
    rw [hrest, List.mem_append] at he'
    rw [hstaged, List.mem_append, List.mem_cons]
    exact he'.imp_right .inr
  have hmem : e ∈ s.staged := by simp [hstaged]
  have hnodup := h.keys_nodup
  rw [hstaged, List.map_append, List.map_cons, List.nodup_middle] at hnodup
  have hne : ∀ e' ∈ s'.staged, keyOf e'.entry.name ≠ keyOf e.entry.name := by
    intro e' he' heq
    rw [hrest] at he'
    refine (List.nodup_cons.mp hnodup).1 ?_
    rw [← List.map_append]
    exact heq ▸ List.mem_map_of_mem he'
  -- what is put back cannot be the work of another entry: no two staged entries share a key
  have hget : ∀ name, s'.registry.get? name =
      if keyOf name = keyOf e.entry.name then before.get? name else s.registry.get? name := by
    intro name
    rw [hregistry, Staging.undo, h.previous e hmem]
    cases hd : before.get? e.entry.name with
    | none =>
        rw [Registry.get?_remove]
        split
        · rename_i hk
          rw [Registry.get?_congr hk, hd]
        · rfl
    | some d =>
        rw [Registry.get?_put, hbefore.key_eq hd]
        split
        · rename_i hk
          rw [Registry.get?_congr hk, hd]
        · rfl
  constructor
  case mem => exact fun e' he' => h.mem e' (hsub e' he')
  case seen => exact fun e' he' => hseen ▸ h.seen e' (hsub e' he')
  case previous => exact fun e' he' => h.previous e' (hsub e' he')
  case keys_nodup =>
    rw [hrest, List.map_append]
    exact (List.nodup_cons.mp hnodup).2
  case written =>
    intro e' he'
    rw [hget, if_neg (hne e' he')]
    exact h.written e' (hsub e' he')
  case untouched =>
    intro name hname
    rw [hget]
    split
    · rfl
    · rename_i hk
      refine h.untouched name fun e' he' => ?_
      rw [hstaged, List.mem_append, List.mem_cons, or_left_comm] at he'
      rcases he' with rfl | he'
      · exact Ne.symm hk
      · exact hname e' (by rwa [hrest, List.mem_append])
  case keyed =>
    rw [hregistry, Staging.undo]
    split
    · exact h.keyed.put _
    · exact h.keyed.remove _

theorem settle (h : s.Tracks settings now before entries) (hbefore : before.Keyed)
    (formulas : Formulas) : (s.settle formulas).Tracks settings now before entries := by
  fun_induction Staging.settle s formulas with
  | case1 s hnone => exact h
  | case2 s e name others hfound _ ih =>
      obtain ⟨init, tail, hstaged, rfl, -⟩ := takeFirst?_eq_some hfound
      exact ih (h.undo hbefore hstaged rfl rfl rfl)

theorem stageAll (h : s.Tracks settings now before entries) {rest : List CheckedEntry}
    (hrest : ∀ e ∈ rest, e ∈ entries) :
    (rest.foldl (·.stage settings now ·) s).Tracks settings now before entries := by
  induction rest generalizing s with
  | nil => exact h
  | cons e rest ih =>
      exact ih (h.stage (hrest e List.mem_cons_self)) fun e' he' =>
        hrest e' (List.mem_cons_of_mem _ he')

end Tracks

theorem tracks_ofEntries {state : State} (settings : Settings) (now : Instant)
    (h : state.registry.Keyed) (supply : TokenSupply) (entries : List CheckedEntry) :
    (ofEntries settings now state supply entries).Tracks settings now state.registry entries :=
  ((Tracks.start h supply).stageAll fun _ he => he).settle h state.formulas

end Staging

end Parametric
