import VisualScript.Script.Evaluation
import Mathlib.Data.Nat.Find

/-!
# Proofs — Paths

Block paths and the blocks that enclose them.  A block encloses another if its path is a prefix;
`Innermost` is the innermost block that encloses every block of a set, and `common_eq` says that
this is the level `Evaluation.common` computes.
-/

namespace VisualScript

/-- `p` is the path of the innermost block that encloses every block of a set: their longest common
prefix.  An empty set has none. -/
def Innermost (S : Path → Prop) (p : Path) : Prop :=
  (∀ q, S q → p <+: q) ∧ ∀ p', (∀ q, S q → p' <+: q) → p' <+: p

namespace Innermost

variable {S : Path → Prop} {p p' : Path}

theorem unique (h : Innermost S p) (h' : Innermost S p') : p = p' :=
  (h'.2 p h.1).eq_of_length_le (h.2 p' h'.1).length_le

/-- Blocks that have something in them have an innermost block around them. -/
theorem exists_of_nonempty {q : Path} (hq : S q) : ∃ p, Innermost S p := by
  classical
  let P (k : Nat) : Prop := ∀ q', S q' → q.take k <+: q'
  refine ⟨q.take (Nat.findGreatest P q.length), ?_, fun p' hp' => ?_⟩
  · have h0 : P 0 := fun q' _ => by simp
    exact Nat.findGreatest_spec (Nat.zero_le _) h0
  · have htake : q.take p'.length = p' := (List.prefix_iff_eq_take.mp (hp' q hq)).symm
    have hle : p'.length ≤ Nat.findGreatest P q.length :=
      Nat.le_findGreatest (hp' q hq).length_le (by simpa only [P, htake] using hp')
    rw [← htake]
    exact List.take_prefix_take_left hle

end Innermost

namespace Evaluation

theorem length_le_sharedLength {p c : Path} :
    ∀ {q : Path}, p <+: c → (p.length ≤ sharedLength q c ↔ p <+: q) := by
  induction p generalizing c with
  | nil => simp
  | cons a p ih =>
    intro q hp
    cases c with
    | nil => simp at hp
    | cons b c =>
      obtain ⟨rfl, hpc⟩ := List.cons_prefix_cons.mp hp
      cases q with
      | nil => simp [sharedLength]
      | cons d q =>
        rw [sharedLength]
        split
        · rename_i hd
          subst hd
          simp [ih hpc, List.cons_prefix_cons]
        · rename_i hd
          simp [List.cons_prefix_cons, Ne.symm hd]

theorem le_common {reads : List (String × Path)} {id : String} {c : Path} {k : Nat} :
    k ≤ common reads id c ↔ k ≤ c.length ∧ ∀ q, (id, q) ∈ reads → k ≤ sharedLength q c := by
  have key : ∀ (rs : List (String × Path)) (level : Nat),
      k ≤ rs.foldl (fun level r => min level (sharedLength r.2 c)) level ↔
        k ≤ level ∧ ∀ r ∈ rs, k ≤ sharedLength r.2 c := by
    intro rs
    induction rs with
    | nil => simp
    | cons r rs ih =>
      intro level
      simp only [List.foldl_cons, ih, Nat.le_min, List.forall_mem_cons, and_assoc]
  rw [common, key]
  refine and_congr_right fun _ => ⟨fun h q hq => h (id, q) (by simpa using hq), fun h r hr => ?_⟩
  obtain ⟨hr, he⟩ := List.mem_filter.mp hr
  have he : r.1 = id := by simpa using he
  exact h r.2 (he ▸ hr)

/-- The level `common` computes is that of the innermost block around all recorded reads. -/
theorem common_eq {reads : List (String × Path)} {id : String} {p c : Path}
    (h : Innermost (fun q => (id, q) ∈ reads) p) (hc : p <+: c) :
    common reads id c = p.length := by
  apply Nat.le_antisymm
  · obtain ⟨hlen, hall⟩ := le_common.mp (Nat.le_refl (common reads id c))
    have hprefix := h.2 (c.take (common reads id c)) fun q hq =>
      (length_le_sharedLength (List.take_prefix _ c)).mp (by simpa [hlen] using hall q hq)
    simpa [hlen] using hprefix.length_le
  · exact le_common.mpr ⟨hc.length_le, fun q hq => (length_le_sharedLength hc).mpr (h.1 q hq)⟩

end Evaluation

end VisualScript
