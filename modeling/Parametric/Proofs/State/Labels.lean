import Parametric.Proofs.Creation.Settlement
import Parametric.Proofs.State.Mirror

/-!
# Names and tokens of definitions

Most operations leave names and tokens as they are, or take them away with their definitions. New names come from
entries of batches and from conflicts. New tokens come from entries only: one that an entry brings along is compared
with those of the registry, so only tokens that are drawn have to be fresh.
-/

namespace Parametric

/-! ## Registries -/

namespace Registry

/-- Definitions are taken away or keep their names and tokens. -/
def KeepsLabels (r r' : Registry) : Prop :=
  ∀ ⦃name d'⦄, r'.get? name = some d' → ∃ d, r.get? name = some d ∧ d.label = d'.label

/-- All definitions have names with a property. -/
def AllNames (P : String → Prop) (r : Registry) : Prop := ∀ ⦃name d⦄, r.get? name = some d → P d.name

def Distinct (r : Registry) : Prop :=
  ∀ ⦃a b da db⦄, r.get? a = some da → r.get? b = some db → da.identity = db.identity → keyOf a = keyOf b

variable {r r' : Registry} {d : Definition} {token : Identity} {name : String} {P : String → Prop}

theorem KeepsLabels.refl (r : Registry) : r.KeepsLabels r := fun _ d hd => ⟨d, hd, rfl⟩

theorem keepsLabels_of_map_label
    (h : ∀ name, (r'.get? name).map Definition.label = (r.get? name).map Definition.label) : r.KeepsLabels r' := by
  intro name d' hd'
  have hlabel := h name
  rw [hd', Option.map_some] at hlabel
  exact Option.map_eq_some_iff.mp hlabel.symm

theorem keepsLabels_remove (r : Registry) (name : String) : r.KeepsLabels (r.remove name) := by
  intro other d' hd'
  rw [get?_remove] at hd'
  split at hd'
  · cases hd'
  · exact ⟨d', hd', rfl⟩

theorem keepsLabels_put {d' : Definition} (hd : r.get? d.name = some d) (hlabel : d.label = d'.label) :
    r.KeepsLabels (r.put d') := by
  intro other found hfound
  rw [get?_put] at hfound
  split at hfound
  · rename_i hk
    cases hfound
    have hname : d.name = d'.name := congrArg Prod.fst hlabel
    exact ⟨d, by rw [get?_congr (hk.trans (congrArg keyOf hname.symm)), hd], hlabel⟩
  · exact ⟨found, hfound, rfl⟩

theorem KeepsLabels.allNames (h : r.KeepsLabels r') (hr : r.AllNames P) : r'.AllNames P := by
  intro name d' hd'
  obtain ⟨d, hd, hlabel⟩ := h hd'
  have hname : d.name = d'.name := congrArg Prod.fst hlabel
  exact hname ▸ hr hd

theorem KeepsLabels.distinct (h : r.KeepsLabels r') (hr : r.Distinct) : r'.Distinct := by
  intro a b da' db' hda' hdb' hsame
  obtain ⟨da, hda, hlabela⟩ := h hda'
  obtain ⟨db, hdb, hlabelb⟩ := h hdb'
  refine hr hda hdb ?_
  exact (congrArg Prod.snd hlabela).trans (hsame.trans (congrArg Prod.snd hlabelb).symm)

theorem AllNames.empty : AllNames P {} := by simp [AllNames, get?]

theorem AllNames.put (h : r.AllNames P) (hname : P d.name) : (r.put d).AllNames P := by
  intro name d' hd'
  rw [get?_put] at hd'
  split at hd'
  · cases hd'
    exact hname
  · exact h hd'

theorem AllNames.move (h : r.AllNames P) (d : Definition) {new : String} (hnew : P new) :
    ((r.remove d.name).put { d with name := new }).AllNames P :=
  ((keepsLabels_remove r d.name).allNames h).put hnew

theorem Distinct.empty : Distinct {} := by simp [Distinct, get?]

theorem identity_ne_of_ownerOf? (h : r.ownerOf? token = none)
    (hd : r.get? name = some d) : d.identity ≠ token := by
  have hmem : d ∈ r.definitions := SortedMap.mem_values_iff.mpr ⟨_, hd⟩
  simpa using List.find?_eq_none.mp h d hmem

theorem Distinct.put (h : r.Distinct)
    (hfresh : ∀ {name d'}, r.get? name = some d' → d'.identity ≠ d.identity) : (r.put d).Distinct := by
  intro a b da db hda hdb hsame
  rw [get?_put] at hda hdb
  split at hda
  · rename_i ha
    cases hda
    split at hdb
    · rename_i hb
      exact ha.trans hb.symm
    · exact absurd hsame.symm (hfresh hdb)
  · split at hdb
    · cases hdb
      exact absurd hsame (hfresh hda)
    · exact h hda hdb hsame

theorem Distinct.move (h : r.Distinct) {new : String} (hd : r.get? d.name = some d) :
    ((r.remove d.name).put { d with name := new }).Distinct := by
  refine ((keepsLabels_remove r d.name).distinct h).put fun {name d'} hd' hsame => ?_
  rw [get?_remove] at hd'
  split at hd'
  · cases hd'
  · rename_i hne
    exact hne (h hd' hd hsame)

theorem Distinct.key_of_ownerOf? (h : r.Distinct) (hk : r.Keyed) (hd : r.get? name = some d) {owner : Definition}
    (howner : r.ownerOf? d.identity = some owner) : owner.key = keyOf name := by
  have hidentity : owner.identity = d.identity := by simpa using List.find?_some howner
  exact h ((mem_definitions_iff hk).mp (List.mem_of_find?_eq_some howner)) hd hidentity

theorem Distinct.identities_nodup (h : r.Distinct) (hk : r.Keyed) : (r.definitions.map (·.identity)).Nodup := by
  refine List.Nodup.map_on ?_ (List.Nodup.of_map _ hk.names_nodup)
  intro a ha b hb hsame
  rw [mem_definitions_iff hk] at ha hb
  have hkey := h ha hb hsame
  rw [get?_congr hkey, hb] at ha
  exact (Option.some.inj ha).symm

end Registry

/-! ## Batches -/

theorem CheckedEntry.tokenOwner?_eq_none_iff {e : CheckedEntry} {r : Registry} {token : Identity}
    (htoken : e.identity = some token) :
    e.tokenOwner? r = none ↔ ∀ owner, r.ownerOf? token = some owner → owner.key = keyOf e.name := by
  simp only [tokenOwner?, htoken, bind, Option.bind]
  cases r.ownerOf? token <;> simp

namespace Staging

/-- Each token that is drawn while entries are staged has no owner at that moment. -/
def DrawsFresh (settings : Settings) (now : Instant) (s : Staging) : List CheckedEntry → Prop
  | [] => True
  | e :: rest =>
    (e.stagingError? settings s = none → s.registry.get? e.name = none → e.identity = none →
      s.registry.ownerOf? s.supply.draw.1 = none) ∧
    (s.stage settings now e).DrawsFresh settings now rest

instance decidableDrawsFresh (settings : Settings) (now : Instant) :
    (entries : List CheckedEntry) → (s : Staging) → Decidable (s.DrawsFresh settings now entries)
  | [], _ => .isTrue trivial
  | e :: rest, s =>
    have := decidableDrawsFresh settings now rest (s.stage settings now e)
    inferInstanceAs (Decidable (_ ∧ _))

variable {settings : Settings} {now : Instant} {before : Registry} {entries : List CheckedEntry}
  {s : Staging} {e : CheckedEntry} {P : String → Prop}

theorem registry_write_of_none (h : s.registry.get? e.name = none) :
    (s.write settings now e).registry =
      s.registry.put (e.definition settings now (e.identity.getD s.supply.draw.1)) := by
  simp only [write, h]
  cases e.identity <;> rfl

/-- The token that an entry brings along has no owner if the entry passes and its name is new. -/
theorem ownerOf?_of_tokenOwner? (hk : s.registry.Keyed) (hnone : s.registry.get? e.name = none)
    (howner : e.tokenOwner? s.registry = none) {token : Identity} (htoken : e.identity = some token) :
    s.registry.ownerOf? token = none := by
  cases hfound : s.registry.ownerOf? token with
  | none => rfl
  | some owner =>
      have hkey : keyOf owner.name = keyOf e.name :=
        (CheckedEntry.tokenOwner?_eq_none_iff htoken).mp howner owner hfound
      have hget := (Registry.mem_definitions_iff hk).mp (List.mem_of_find?_eq_some hfound)
      rw [Registry.get?_congr hkey, hnone] at hget
      cases hget

theorem distinct_stage (hk : s.registry.Keyed) (hs : s.registry.Distinct)
    (hfresh : e.stagingError? settings s = none → s.registry.get? e.name = none → e.identity = none →
      s.registry.ownerOf? s.supply.draw.1 = none) : (s.stage settings now e).registry.Distinct := by
  simp only [stage]
  cases herror : e.stagingError? settings s with
  | some error => exact hs
  | none =>
      obtain ⟨-, -, howner⟩ := stagingError?_eq_none_iff.mp herror
      change (s.write settings now e).registry.Distinct
      cases hget : s.registry.get? e.name with
      | none =>
          rw [registry_write_of_none hget]
          refine hs.put fun hd => ?_
          refine Registry.identity_ne_of_ownerOf? ?_ hd
          cases htoken : e.identity with
          | none => exact hfresh herror hget htoken
          | some token => exact ownerOf?_of_tokenOwner? hk hget howner htoken
      | some d =>
          cases hagrees : (e.updated settings d).agreesWith d with
          | true => rwa [write_of_agrees hget hagrees]
          | false =>
              rw [write_of_changed hget hagrees]
              have hown : s.registry.get? d.name = some d := (Registry.get?_congr (hk.key_eq hget)).trans hget
              have hlabels : s.registry.KeepsLabels (s.registry.put (e.updated settings d)) :=
                Registry.keepsLabels_put hown rfl
              exact hlabels.distinct hs

theorem Tracks.distinct_stageAll (h : s.Tracks settings now before entries) (hs : s.registry.Distinct)
    {rest : List CheckedEntry} (hrest : ∀ e ∈ rest, e ∈ entries) (hfresh : s.DrawsFresh settings now rest) :
    (rest.foldl (·.stage settings now ·) s).registry.Distinct := by
  induction rest generalizing s with
  | nil => exact hs
  | cons e rest ih =>
      obtain ⟨he, hrest⟩ := List.forall_mem_cons.mp hrest
      exact ih (h.stage he) (distinct_stage h.keyed hs hfresh.1) hrest hfresh.2

theorem Tracks.keepsLabels_undo {staged : StagedEntry} (h : s.Tracks settings now before entries)
    (hmem : staged ∈ s.staged) : s.registry.KeepsLabels (Staging.undo s.registry staged) := by
  have hwritten := h.written staged hmem
  rw [Staging.undo, h.previous staged hmem]
  cases hd : before.get? staged.entry.name with
  | none => exact Registry.keepsLabels_remove _ _
  | some d =>
      rw [hd] at hwritten
      obtain ⟨d', hd', hlabel⟩ := label_of_writes hwritten
      have hown : s.registry.get? d'.name = some d' := (Registry.get?_congr (h.keyed.key_eq hd')).trans hd'
      exact Registry.keepsLabels_put hown hlabel

theorem Tracks.distinct_settle (h : s.Tracks settings now before entries) (hbefore : before.Keyed)
    (hs : s.registry.Distinct) (formulas : Formulas) : (s.settle formulas).registry.Distinct := by
  fun_induction Staging.settle s formulas with
  | case1 s hnone => exact hs
  | case2 s e name others hfound _ ih =>
      obtain ⟨init, tail, hstaged, rfl, -⟩ := takeFirst?_eq_some hfound
      have hmem : e ∈ s.staged := by simp [hstaged]
      exact ih (h.undo hbefore hstaged rfl rfl rfl) ((h.keepsLabels_undo hmem).distinct hs)

theorem distinct_ofEntries {state : State} {supply : TokenSupply} (hk : state.registry.Keyed)
    (hs : state.registry.Distinct)
    (hfresh : DrawsFresh settings now { registry := state.registry, supply := supply } entries) :
    (ofEntries settings now state supply entries).registry.Distinct := by
  have hstart : Tracks settings now state.registry entries
      { registry := state.registry, supply := supply } := .start hk supply
  exact (hstart.stageAll fun _ he => he).distinct_settle hk
    (hstart.distinct_stageAll hs (fun _ he => he) hfresh) state.formulas

/-- The names after a batch are those from before and those of entries, which are not too long. -/
theorem allNames_ofEntries {state : State} (supply : TokenSupply) (hk : state.registry.Keyed)
    (hs : state.registry.AllNames P)
    (hnew : ∀ e ∈ entries, state.registry.get? e.name = none → e.name.length ≤ settings.naming.maxLength → P e.name) :
    (ofEntries settings now state supply entries).registry.AllNames P := by
  have htracks := tracks_ofEntries settings now hk supply entries
  have hlargest := largest_ofEntries settings now hk supply entries
  generalize ofEntries settings now state supply entries = staging at htracks hlargest ⊢
  intro name d hd
  cases hbefore : state.registry.get? name with
  | some old =>
      obtain ⟨d', hd', hlabel⟩ := htracks.label_of_before hbefore
      obtain rfl := Option.some.inj (hd.symm.trans hd')
      have hname : d.name = old.name := congrArg Prod.fst hlabel
      exact hname ▸ hs hbefore
  | none =>
      obtain ⟨e, he, hkey, hname⟩ := htracks.name_of_new hbefore hd
      obtain ⟨-, -, -, hshort, -⟩ := mem_passing_iff.mp (hlargest.sublist.subset (List.mem_map_of_mem he))
      rw [hname]
      exact hnew e.entry (htracks.mem e he) ((Registry.get?_congr hkey).trans hbefore) hshort

end Staging

/-! ## All operations -/

section Actions

variable {ε : Type}

/-- Whether the tokens that an action draws for definitions are fresh. -/
def Action.DrawsFresh (s : State) (settings : Settings) (now : Instant) : Action ε → Prop
  | .create supply batch cancelled => ∀ entries, s.Admits settings batch entries →
    Staging.DrawsFresh settings now { registry := s.registry, supply := supply }
      (if cancelled then [] else entries)
  | _ => True

/-- Whether all names that an action may give to definitions have a property. -/
def Action.Proposes (P : String → Prop) : Action ε → Prop
  | .resolve _ survey _ _ =>
    ∀ new, (∃ conflict ∈ survey.conflicts, conflict.betterName = some new) → P new
  | _ => True

/-- Whether an action brings no names to the registry, neither new ones nor those of a snapshot. -/
def Action.BringsNoNames : Action ε → Prop
  | .create .. | .resolve .. | .rollback .. => False
  | _ => True

end Actions

namespace State

variable {s : State} {settings : Settings} {now : Instant} {P : String → Prop}

/-- The names after a batch are those from before and those of entries, which are not too long. -/
theorem allNames_create (hk : s.registry.Keyed) (h : s.registry.AllNames P) (supply : TokenSupply) (batch : Batch)
    (cancelled : Bool) (hnew : ∀ entries, s.Admits settings batch entries → ∀ e ∈ entries,
      s.registry.get? e.name = none → e.name.length ≤ settings.naming.maxLength → P e.name) :
    (s.create settings now supply batch cancelled).2.1.registry.AllNames P := by
  rcases s.refused_or_admits settings now supply batch cancelled with ⟨result, -, hrefused⟩ | ⟨entries, hadmits⟩
  · rwa [hrefused]
  · rw [create_of_admits hadmits, (s.committed_commitStaging settings now batch
      (.ofEntries settings now s supply (if cancelled then [] else entries))).registry]
    refine Staging.allNames_ofEntries supply hk h fun e he => hnew entries hadmits e ?_
    split at he
    · cases he
    · exact he

theorem distinct_create (hk : s.registry.Keyed) (h : s.registry.Distinct) {supply : TokenSupply} {batch : Batch}
    {cancelled : Bool} (hfresh : ∀ entries, s.Admits settings batch entries →
      Staging.DrawsFresh settings now { registry := s.registry, supply := supply } (if cancelled then [] else entries)) :
    (s.create settings now supply batch cancelled).2.1.registry.Distinct := by
  rcases s.refused_or_admits settings now supply batch cancelled with ⟨result, -, hrefused⟩ | ⟨entries, hadmits⟩
  · rwa [hrefused]
  · rw [create_of_admits hadmits, (s.committed_commitStaging settings now batch
      (.ofEntries settings now s supply (if cancelled then [] else entries))).registry]
    exact Staging.distinct_ofEntries hk h (hfresh entries hadmits)

variable {ε : Type} [ElementAccess ε]

theorem keepsLabels_perform {action : Action ε} (h : action.BringsNoNames) :
    s.registry.KeepsLabels (s.perform settings now action).registry := by
  have hstep := s.becomes_perform settings now action
  generalize s.perform settings now action = s' at hstep ⊢
  cases hstep with
  | same | captured => exact .refl _
  | @compiled _ _ _ checked _ => exact Registry.keepsLabels_of_map_label (label_commitPlan checked.plan)
  | dropped hdrop => exact Registry.keepsLabels_of_map_label (label_dropFormula hdrop)
  | deleted _ _ =>
      rw [registry_dropDefinition]
      exact Registry.keepsLabels_remove _ _
  | used => exact Registry.keepsLabels_of_map_label (label_countUses _)
  | created _ _ | resolved _ | rolledBack _ => exact h.elim

/-- Unless it renames definitions, an action brings no names but those of entries, which are not too long. -/
theorem allNames_perform (hk : s.registry.Keyed) (h : s.registry.AllNames P) {action : Action ε}
    (hnames : action.KeepsNames) (hkeeps : action.KeepsSnapshots)
    (hnew : ∀ batch entries, s.Admits settings batch entries → ∀ e ∈ entries, s.registry.get? e.name = none →
      e.name.length ≤ settings.naming.maxLength → P e.name) :
    (s.perform settings now action).registry.AllNames P := by
  cases action with
  | create supply batch cancelled => exact allNames_create hk h supply batch cancelled (hnew batch)
  | resolve supply survey policy elements => exact hnames.elim
  | rollback id => exact hkeeps.elim
  | _ =>
      refine (keepsLabels_perform ?_).allNames h
      trivial

/-- An action whose tokens are fresh leaves no two definitions with the same token. -/
theorem distinct_perform (hk : s.registry.Keyed) (h : s.registry.Distinct) {action : Action ε}
    (hfresh : action.DrawsFresh s settings now) (hkeeps : action.KeepsSnapshots) :
    (s.perform settings now action).registry.Distinct := by
  cases action with
  | create supply batch cancelled => exact distinct_create hk h hfresh
  | resolve supply survey policy elements =>
      have hstep := s.becomes_perform settings now (.resolve supply survey policy elements)
      generalize s.perform settings now (.resolve supply survey policy elements) = s' at hstep ⊢
      cases hstep with
      | same => exact h
      | resolved hrenames =>
          refine (hrenames.keeps (P := fun s => s.registry.Keyed ∧ s.registry.Distinct) ⟨hk, h⟩ ?_).2
          rintro s c old new d - - hd ⟨hk, hs⟩
          have hown := (Registry.get?_congr (hk.key_eq hd)).trans hd
          exact ⟨keyed_moveDefinition hk d _, hs.move hown⟩
  | rollback id => exact hkeeps.elim
  | _ =>
      refine (keepsLabels_perform ?_).distinct h
      trivial

end State

/-! ## Runs -/

theorem distinct_lasting : Engine.Lasting fun s => s.Keyed ∧ s.Throughout fun r _ => r.Distinct :=
  keyed_lasting.and (State.Throughout.lasting .empty)

namespace Engine

variable {ε : Type} [ElementAccess ε]

/-- As long as all tokens that are drawn for definitions are fresh, no two definitions have the same token. -/
theorem distinct_run (settings : Settings) (start : Instant) (supply : TokenSupply)
    (steps : List (Instant × Operation ε))
    (hfresh : (fresh settings start supply).Along
      (fun e step => (e.actionOf step.1 step.2).DrawsFresh e.state e.settings step.1) steps) :
    ((fresh settings start supply).run steps).state.registry.Distinct :=
  (distinct_lasting.holds_along (fun e step hdraws he => by
    obtain ⟨hkeyed, hdistinct⟩ := he.state
    exact ⟨hkeyed.perform _, hdistinct.perform (State.distinct_perform hkeyed.registry hdistinct.live hdraws)⟩) hfresh
    (distinct_lasting.holds_fresh start settings supply)).state.2.live

end Engine

end Parametric
