import Mathlib
import Parametric.Version.Revision

/-!
# Versions of the registry

The versions that the registry goes through have neither pre-release nor build identifiers. They are
ordered by their numbers, every step leads to a later one, and no two of them have the same text.
-/

namespace Parametric.Version

/-- A version that consists of its three numbers. -/
structure IsRelease (v : Version) : Prop where
  preRelease : v.preRelease = []
  build : v.build = []

variable {v w u : Version}

theorem isRelease_advance (v : Version) (step : VersionStep) : (v.advance step).IsRelease := by
  cases step <;> exact ⟨rfl, rfl⟩

theorem compare_eq_lt_iff (hv : v.IsRelease) (hw : w.IsRelease) : v.compare w = .lt ↔
    v.major < w.major ∨ v.major = w.major ∧
      (v.minor < w.minor ∨ v.minor = w.minor ∧ v.patch < w.patch) := by
  simp [compare, hv.preRelease, hv.build, hw.preRelease, hw.build, comparePreReleases, compareLists,
    Ordering.then_eq_lt, Nat.compare_eq_lt]

theorem compare_advance (hv : v.IsRelease) (step : VersionStep) : v.compare (v.advance step) = .lt := by
  rw [compare_eq_lt_iff hv (isRelease_advance v step)]
  cases step <;> simp [advance]

theorem compare_trans (hv : v.IsRelease) (hw : w.IsRelease) (hu : u.IsRelease)
    (hvw : v.compare w = .lt) (hwu : w.compare u = .lt) : v.compare u = .lt := by
  rw [compare_eq_lt_iff hv hw] at hvw
  rw [compare_eq_lt_iff hw hu] at hwu
  rw [compare_eq_lt_iff hv hu]
  omega

theorem ne_of_compare (hv : v.IsRelease) (h : v.compare w = .lt) : v ≠ w := by
  rintro rfl
  rw [compare_eq_lt_iff hv hv] at h
  omega

theorem toList_text (hv : v.IsRelease) : v.text.toList =
    List.intercalate ['.'] ([v.major, v.minor, v.patch].map fun n => n.repr.toList) := by
  simp [text, hv.preRelease, hv.build, List.intercalate_cons_cons, toString]

/-- No two releases have the same text: its parts are what stands between the points. -/
theorem text_inj (hv : v.IsRelease) (hw : w.IsRelease) (h : v.text = w.text) : v = w := by
  have hparts : ∀ numbers : List Nat, ∀ part ∈ numbers.map fun n => n.repr.toList, '.' ∉ part := by
    intro numbers part hpart hpoint
    obtain ⟨n, -, rfl⟩ := List.mem_map.mp hpart
    have hdigit : '.'.isDigit = true := Nat.isDigit_of_mem_toDigits (b := 10) (by decide) (by decide)
      (by simpa [Nat.repr] using hpoint)
    cases hdigit
  have hsame := congrArg String.toList h
  rw [toList_text hv, toList_text hw] at hsame
  have hsplit := congrArg (List.splitOn '.') hsame
  rw [List.splitOn_intercalate _ (hparts _) (by simp), List.splitOn_intercalate _ (hparts _) (by simp)] at hsplit
  simp only [List.map_cons, List.map_nil, List.cons.injEq, String.toList_inj, Nat.repr_inj] at hsplit
  obtain ⟨hmajor, hminor, hpatch, -⟩ := hsplit
  cases v
  cases w
  obtain ⟨rfl, rfl⟩ := hv
  obtain ⟨rfl, rfl⟩ := hw
  cases hmajor
  cases hminor
  cases hpatch
  rfl

end Parametric.Version
