import Parametric.Proofs.History
import Parametric.Proofs.Sorting
import Parametric.Proofs.Version

/-!
# Histories that grow

A history grows by records and by snapshots and in no other way. So nothing is ever taken out of it, its
versions form a chain, its commits agree with its events, and its snapshots are numbered one by one.
-/

namespace Parametric.History

variable {h h' : History} {now : Instant} {message description : String} {author : Option String}
  {changes : List Change} {step : VersionStep} {registry : Registry} {formulas : Formulas}

/-! ## Growth -/

/-- A history that has come about from another one by records and snapshots. -/
inductive LeadsTo (h : History) : History → Prop
  | refl : h.LeadsTo h
  | record {h' : History} (past : h.LeadsTo h') (now : Instant) (message : String) (author : Option String)
      (changes : List Change) (step : VersionStep) : h.LeadsTo (h'.record now message author changes step)
  | addSnapshot {h' : History} (past : h.LeadsTo h') (now : Instant) (description : String)
      (registry : Registry) (formulas : Formulas) : h.LeadsTo (h'.addSnapshot now description registry formulas)

theorem LeadsTo.recordChanges (past : h.LeadsTo h') (now : Instant) (message : String)
    (author : Option String) (changes : List Change) :
    h.LeadsTo (h'.recordChanges now message author changes) := by
  by_cases hne : changes = []
  · rwa [hne, recordChanges_nil]
  · obtain ⟨step, hstep⟩ := recordChanges_of_ne_nil h' now message author hne
    rw [hstep]
    exact past.record now message author changes step

/-- Nothing is taken out of a history, and nothing is put in before its end. -/
theorem LeadsTo.isPrefix (past : h.LeadsTo h') :
    h.snapshots <+: h'.snapshots ∧ h.events <+: h'.events ∧ h.commits <+: h'.commits := by
  induction past with
  | refl => exact ⟨List.prefix_refl _, List.prefix_refl _, List.prefix_refl _⟩
  | record _ now message author changes step ih =>
      exact ⟨ih.1, ih.2.1.trans (List.prefix_append _ _), ih.2.2.trans (List.prefix_append _ _)⟩
  | addSnapshot _ now description registry formulas ih =>
      exact ⟨ih.1.trans (List.prefix_append _ _), ih.2⟩

/-! ## Chains of versions -/

/-- The texts of the versions so far: that of an empty registry, and those of all commits. -/
def versionTexts (h : History) : List String := "0.0.0" :: h.commits.map (·.revision.version.text)

/-- The versions of a history: every commit names the version before it, and each is later than all
before. -/
structure Chained (h : History) : Prop where
  release : h.revision.version.IsRelease
  releases : ∀ commit ∈ h.commits, commit.revision.version.IsRelease
  last : ∀ commit ∈ h.commits.getLast?, commit.revision = h.revision
  reached : h.versionTexts.getLast? = some h.revision.version.text
  linked : h.commits.map (·.revision.predecessor) = h.versionTexts.dropLast.map some
  ascending : h.commits.Pairwise fun a b => a.revision.version.compare b.revision.version = .lt

theorem versionTexts_record : (h.record now message author changes step).versionTexts =
    h.versionTexts ++ [(h.revision.version.advance step).text] := by
  simp [versionTexts, record, Revision.advance]

namespace Chained

theorem start (now : Instant) : Chained (start now) where
  release := ⟨rfl, rfl⟩
  releases := by simp [History.start]
  last := by simp [History.start]
  reached := by
    change some "0.0.0" = some (Version.text ⟨0, 0, 0, [], []⟩)
    decide
  linked := rfl
  ascending := List.Pairwise.nil

theorem addSnapshot (hc : h.Chained) : (h.addSnapshot now description registry formulas).Chained :=
  ⟨hc.release, hc.releases, hc.last, hc.reached, hc.linked, hc.ascending⟩

theorem lt_advance (hc : h.Chained) (step : VersionStep) {commit : Commit} (hm : commit ∈ h.commits) :
    commit.revision.version.compare (h.revision.version.advance step) = .lt := by
  have hadvance := Version.compare_advance hc.release step
  obtain ⟨init, last, hcommits⟩ := (List.eq_nil_or_concat h.commits).resolve_left (List.ne_nil_of_mem hm)
  rw [List.concat_eq_append] at hcommits
  have hlast : last.revision = h.revision := hc.last last (by simp [hcommits])
  have hascending := hc.ascending
  rw [hcommits, List.pairwise_append] at hascending
  rw [hcommits, List.mem_append, List.mem_singleton] at hm
  rcases hm with hm | rfl
  · have hbefore := hascending.2.2 commit hm last List.mem_cons_self
    rw [hlast] at hbefore
    exact Version.compare_trans (hc.releases commit (by simp [hcommits, hm])) hc.release
      (Version.isRelease_advance _ step) hbefore hadvance
  · rwa [hlast]

theorem record (hc : h.Chained) : (h.record now message author changes step).Chained where
  release := Version.isRelease_advance _ step
  releases := by
    simp only [History.record, List.forall_mem_append, List.forall_mem_singleton]
    exact ⟨hc.releases, Version.isRelease_advance _ step⟩
  last := by simp [History.record]
  reached := by
    rw [versionTexts_record, List.getLast?_concat]
    rfl
  linked := by
    obtain ⟨init, last, htexts⟩ := (List.eq_nil_or_concat h.versionTexts).resolve_left (by simp [versionTexts])
    have hreached := hc.reached
    have hlinked := hc.linked
    rw [List.concat_eq_append] at htexts
    rw [htexts, List.getLast?_concat, Option.some_inj] at hreached
    rw [htexts, List.dropLast_concat] at hlinked
    rw [versionTexts_record, List.dropLast_concat, htexts, hreached, List.map_append, ← hlinked]
    simp [History.record, Revision.advance]
  ascending := by
    refine List.pairwise_append.mpr ⟨hc.ascending, List.pairwise_singleton _ _, fun commit hm new hnew => ?_⟩
    rw [List.mem_singleton.mp hnew]
    exact hc.lt_advance step hm

theorem text_ne (hc : h.Chained) (step : VersionStep) {commit : Commit} (hm : commit ∈ h.commits) :
    commit.revision.version.text ≠ (h.revision.version.advance step).text := fun htext =>
  Version.ne_of_compare (hc.releases commit hm) (hc.lt_advance step hm)
    (Version.text_inj (hc.releases commit hm) (Version.isRelease_advance _ step) htext)

end Chained

/-! ## Commits and events -/

/-- Commits and events belong together: a commit lists the names of the events that carry its version, in
ascending order, and there are no other events. -/
structure Accounted (h : History) : Prop where
  sorted : ∀ commit ∈ h.commits, commit.changes.Pairwise (· < ·)
  listed : ∀ commit ∈ h.commits, ∀ name, name ∈ commit.changes ↔
    ∃ event ∈ h.events, event.revision = commit.revision.version.text ∧ event.name = name
  carried : ∀ event ∈ h.events, ∃ commit ∈ h.commits, event.revision = commit.revision.version.text

namespace Accounted

theorem start (now : Instant) : Accounted (start now) := by
  constructor <;> simp [History.start]

theorem addSnapshot (ha : h.Accounted) : (h.addSnapshot now description registry formulas).Accounted :=
  ⟨ha.sorted, ha.listed, ha.carried⟩

theorem record (ha : h.Accounted) (hc : h.Chained) :
    (h.record now message author changes step).Accounted := by
  let text := (h.revision.version.advance step).text
  let new := changes.map (eventOf now text message)
  have hnew : ∀ event ∈ new, event.revision = text := by
    simp [new, eventOf]
  have hold : ∀ event ∈ h.events, event.revision ≠ text := by
    intro event hm
    obtain ⟨commit, hcommit, hrevision⟩ := ha.carried event hm
    exact hrevision ▸ hc.text_ne step hcommit
  constructor
  case sorted =>
    simp only [History.record, List.forall_mem_append, List.forall_mem_singleton]
    exact ⟨ha.sorted, pairwise_sortedTexts _⟩
  case listed =>
    simp only [History.record, List.forall_mem_append, List.forall_mem_singleton]
    refine ⟨fun commit hm name => ?_, fun name => ?_⟩
    · have hnone : ¬∃ event ∈ new, event.revision = commit.revision.version.text ∧ event.name = name := by
        rintro ⟨event, hevent, hrevision, -⟩
        exact hc.text_ne step hm (hrevision.symm.trans (hnew event hevent))
      simp only [List.mem_append, or_and_right, exists_or]
      exact (ha.listed commit hm name).trans (or_iff_left hnone).symm
    · have hnone : ¬∃ event ∈ h.events, event.revision = text ∧ event.name = name := by
        rintro ⟨event, hevent, hrevision, -⟩
        exact hold event hevent hrevision
      simp only [List.mem_append, or_and_right, exists_or]
      refine Iff.trans ?_ (or_iff_right hnone).symm
      simp [mem_sortedTexts, eventOf, Revision.advance]
  case carried =>
    simp only [History.record, List.forall_mem_append]
    refine ⟨fun event hm => ?_, fun event hm => ⟨_, List.mem_concat_self, hnew event hm⟩⟩
    obtain ⟨commit, hcommit, hrevision⟩ := ha.carried event hm
    exact ⟨commit, List.mem_append_left _ hcommit, hrevision⟩

end Accounted

/-! ## Snapshots -/

/-- Snapshots have the numbers from one on, and the digests that they were taken with. -/
structure Numbered (h : History) : Prop where
  numbers : h.snapshots.map (·.id.number) = List.range' 1 h.lastSnapshot
  verified : ∀ snapshot ∈ h.snapshots, snapshot.verify = .ok ()

namespace Numbered

theorem start (now : Instant) : Numbered (start now) := ⟨rfl, by simp [History.start]⟩

theorem record (hn : h.Numbered) : (h.record now message author changes step).Numbered :=
  ⟨hn.numbers, hn.verified⟩

theorem addSnapshot (hn : h.Numbered) : (h.addSnapshot now description registry formulas).Numbered where
  numbers := by
    simp [History.addSnapshot, hn.numbers, nextSnapshot, List.range'_concat, Nat.add_comm]
  verified := by
    simp only [History.addSnapshot, List.forall_mem_append, List.forall_mem_singleton]
    exact ⟨hn.verified, by simp [Snapshot.verify]⟩

theorem snapshot?_nextSnapshot (hn : h.Numbered) : h.snapshot? h.nextSnapshot = none := by
  refine List.find?_eq_none.mpr fun snapshot hm hid => ?_
  have hmem : h.lastSnapshot + 1 ∈ h.snapshots.map (·.id.number) :=
    List.mem_map.mpr ⟨snapshot, hm, congrArg SnapshotNumber.number (eq_of_beq hid)⟩
  rw [hn.numbers, List.mem_range'_1] at hmem
  omega

theorem snapshot?_addSnapshot (hn : h.Numbered) :
    (h.addSnapshot now description registry formulas).snapshot? h.nextSnapshot =
      some ⟨h.nextSnapshot, description, now, h.revision, registry, formulas, registry.checksum⟩ := by
  have hnone := hn.snapshot?_nextSnapshot
  simp only [snapshot?] at hnone
  simp [snapshot?, History.addSnapshot, List.find?_append, hnone]

end Numbered

/-! ## What growth keeps -/

/-- Everything that holds of a history from the beginning. -/
structure Consistent (h : History) : Prop where
  chained : h.Chained
  accounted : h.Accounted
  numbered : h.Numbered

theorem Consistent.start (now : Instant) : Consistent (start now) := ⟨.start now, .start now, .start now⟩

theorem LeadsTo.consistent (past : h.LeadsTo h') (hc : h.Consistent) : h'.Consistent := by
  induction past with
  | refl => exact hc
  | record _ now message author changes step ih =>
      exact ⟨ih.chained.record, ih.accounted.record ih.chained, ih.numbered.record⟩
  | addSnapshot _ now description registry formulas ih =>
      exact ⟨ih.chained.addSnapshot, ih.accounted.addSnapshot, ih.numbered.addSnapshot⟩

end Parametric.History
