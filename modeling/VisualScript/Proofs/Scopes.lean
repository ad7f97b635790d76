import VisualScript.Proofs.Code
import VisualScript.Proofs.Reading

/-!
# Proofs — Scopes

The stack of open scopes.  Every scope but the outermost belongs to a block (`Scopes.Shaped`), so
the level of a scope is the length of its path; what holds of each scope at its own path is
`Scopes.All`.
-/

namespace VisualScript

/-- The scopes differ in what they have captured at most. -/
structure Scope.SameAs (a b : Scope) : Prop where
  key      : a.key = b.key
  isThread : a.isThread = b.isThread
  bindings : a.bindings = b.bindings
  hoisted  : a.hoisted = b.hoisted

theorem Scope.SameAs.refl (a : Scope) : a.SameAs a := ⟨rfl, rfl, rfl, rfl⟩

theorem Scope.capture_sameAs (a : Scope) (name : String) : a.SameAs (a.capture name) := by
  unfold capture
  split <;> exact ⟨rfl, rfl, rfl, rfl⟩

namespace Scopes

variable {ss ss' ts : Scopes} {P : Path → Scope → Prop} {slot : Endpoint}

/-- Every scope but the outermost belongs to a block. -/
inductive Shaped : Scopes → Prop where
  | body {sc : Scope} (h : sc.key = none) : Shaped [sc]
  | block {sc : Scope} {ss : Scopes} {k : BlockKey} (h : sc.key = some k) (rest : Shaped ss) :
      Shaped (sc :: ss)

theorem path_cons (sc : Scope) (ss : Scopes) : path (sc :: ss) = path ss ++ sc.key.toList := by
  cases h : sc.key <;> simp [path, h]

theorem path_cons_some {sc : Scope} {k : BlockKey} (ss : Scopes) (h : sc.key = some k) :
    path (sc :: ss) = path ss ++ [k] := by simp [path_cons, h]

theorem path_tail_encloses (sc : Scope) (ss : Scopes) : path ss <+: path (sc :: ss) := by
  rw [path_cons]
  exact List.prefix_append _ _

namespace Shaped

variable {ss : Scopes}

theorem ne_nil (h : Shaped ss) : ss ≠ [] := by cases h <;> simp

/-- The level of the innermost scope is the length of its path. -/
theorem length_path (h : Shaped ss) : (path ss).length = top ss := by
  induction h with
  | body h => simp [path, h, top]
  | block h rest ih =>
    have := List.length_pos_iff.mpr rest.ne_nil
    rw [path_cons_some _ h, List.length_append, ih]
    simp only [top, List.length_cons, List.length_nil]
    omega

theorem drop (h : Shaped ss) : ∀ {hidden : Nat}, hidden ≤ top ss →
    Shaped (ss.drop hidden) ∧ path (ss.drop hidden) = (path ss).take (top ss - hidden) := by
  induction h with
  | body h =>
    intro hidden hle
    obtain rfl : hidden = 0 := by simpa [top] using hle
    exact ⟨.body h, by simp [path, h]⟩
  | @block sc ss k h rest ih =>
    intro hidden hle
    have hpos := List.length_pos_iff.mpr rest.ne_nil
    have htop : top (sc :: ss) = top ss + 1 := by simp only [top, List.length_cons]; omega
    cases hidden with
    | zero =>
      refine ⟨.block h rest, ?_⟩
      rw [List.drop_zero, Nat.sub_zero, ← (Shaped.block h rest).length_path, List.take_length]
    | succ hidden =>
      obtain ⟨h₁, h₂⟩ := ih (show hidden ≤ top ss by omega)
      refine ⟨h₁, ?_⟩
      rw [List.drop_succ_cons, h₂, path_cons_some _ h, htop, Nat.add_sub_add_right,
        List.take_append_of_le_length (by rw [rest.length_path]; omega)]

end Shaped

/-- A property of each scope at its path. -/
def All (P : Path → Scope → Prop) : Scopes → Prop
  | []       => True
  | sc :: ss => P (path (sc :: ss)) sc ∧ All P ss

namespace All

variable {P : Path → Scope → Prop} {ss ts : Scopes}

theorem drop (h : All P ss) : ∀ hidden : Nat, All P (ss.drop hidden) := by
  induction ss with
  | nil => intro hidden; simpa using h
  | cons sc ss ih =>
    intro hidden
    cases hidden with
    | zero => exact h
    | succ hidden => exact ih h.2 hidden

end All

/-! ### Hiding the innermost scopes -/

/-- Scopes put back on top of others of the same path. -/
theorem path_take_append : ∀ {hidden : Nat}, path ts = path (ss.drop hidden) →
    path (ss.take hidden ++ ts) = path ss := by
  induction ss with
  | nil => intro hidden h; simpa using h
  | cons sc ss ih =>
    intro hidden h
    cases hidden with
    | zero => simpa using h
    | succ hidden => rw [List.take_succ_cons, List.cons_append, path_cons, path_cons, ih h]

theorem Shaped.take_append (h : Shaped ss) (ht : Shaped ts) :
    ∀ {hidden : Nat}, hidden ≤ top ss → Shaped (ss.take hidden ++ ts) := by
  induction h with
  | body h =>
    intro hidden hle
    obtain rfl : hidden = 0 := by simpa [top] using hle
    simpa using ht
  | @block sc ss k h rest ih =>
    intro hidden hle
    have hpos := List.length_pos_iff.mpr rest.ne_nil
    cases hidden with
    | zero => simpa using ht
    | succ hidden =>
      have hle : hidden ≤ top ss := by simp only [top, List.length_cons] at hle ⊢; omega
      exact .block h (ih hle)

theorem All.take_append (h : All P ss) (ht : All P ts) :
    ∀ {hidden : Nat}, path ts = path (ss.drop hidden) → All P (ss.take hidden ++ ts) := by
  induction ss with
  | nil => intro hidden _; simpa using ht
  | cons sc ss ih =>
    intro hidden hp
    cases hidden with
    | zero => simpa using ht
    | succ hidden =>
      have hpath : path (sc :: (ss.take hidden ++ ts)) = path (sc :: ss) := by
        rw [path_cons, path_cons, path_take_append (show path ts = path (ss.drop hidden) from hp)]
      exact ⟨hpath.symm ▸ h.1, ih h.2 hp⟩

/-! ### Looking up -/

/-- The slot has a value in some open scope. -/
def Binds (ss : Scopes) (slot : Endpoint) : Prop := ∃ sc ∈ ss, ∃ value, (slot, value) ∈ sc.bindings

theorem Binds.of_drop {hidden : Nat} (h : Binds (ss.drop hidden) slot) : Binds ss slot :=
  let ⟨sc, hsc, hb⟩ := h
  ⟨sc, List.mem_of_mem_drop hsc, hb⟩

/-- Looking a slot up changes captures only. -/
theorem lookup?_sameAs : ∀ {ss ss' : Scopes} {value : Expr},
    lookup? slot ss = some (value, ss') → List.Forall₂ Scope.SameAs ss ss'
  | [], _, _, h => by cases h
  | sc :: ss, ss', value, h => by
    rw [lookup?] at h
    split at h
    · cases h
      exact .cons (.refl sc) (List.forall₂_same.mpr fun a _ => .refl a)
    · split at h
      · rename_i e ts hl
        cases h
        refine .cons ?_ (lookup?_sameAs hl)
        split
        · exact Scope.capture_sameAs _ _
        · exact .refl _
      · cases h

/-- A value that is found is bound in a scope around the reader. -/
theorem All.of_lookup? :
    ∀ {ss ss' : Scopes} {value : Expr}, All P ss → lookup? slot ss = some (value, ss') →
      ∃ q sc, q <+: path ss ∧ P q sc ∧ (slot, value) ∈ sc.bindings
  | [], _, _, _, h => by cases h
  | sc :: ss, ss', value, hall, h => by
    rw [lookup?] at h
    split at h
    · rename_i e he
      cases h
      exact ⟨_, sc, List.prefix_rfl, hall.1, Assoc.mem_of_lookup he⟩
    · split at h
      · rename_i e ts hl
        cases h
        obtain ⟨q, sc', hq, hP, hm⟩ := hall.2.of_lookup? hl
        exact ⟨q, sc', hq.trans (path_tail_encloses sc ss), hP, hm⟩
      · cases h

theorem not_binds_of_lookup? : ∀ {ss : Scopes}, lookup? slot ss = none →
    ¬ Binds ss slot
  | [], _, ⟨_, hm, _⟩ => by cases hm
  | sc :: ss, h, ⟨sc', hm, value, hb⟩ => by
    rw [lookup?] at h
    split at h
    · cases h
    · rename_i hnone
      split at h
      · cases h
      · rename_i hl
        rcases List.mem_cons.mp hm with rfl | hm
        · have := Assoc.lookup_isSome_of_mem hb
          simp [hnone] at this
        · exact not_binds_of_lookup? hl ⟨sc', hm, value, hb⟩

theorem binds_of_lookup? {value : Expr} (h : lookup? slot ss = some (value, ss')) :
    Binds ss slot := by
  have hall : All (fun _ sc => sc ∈ ss) ss := by
    have : ∀ ts : Scopes, (∀ sc ∈ ts, sc ∈ ss) → All (fun _ sc => sc ∈ ss) ts := by
      intro ts
      induction ts with
      | nil => exact fun _ => trivial
      | cons sc ts ih => exact fun h => ⟨h sc (.head _), ih fun a ha => h a (.tail _ ha)⟩
    exact this ss fun _ h => h
  obtain ⟨q, sc, -, hm, hb⟩ := hall.of_lookup? h
  exact ⟨sc, hm, value, hb⟩

theorem not_binds_of_level? : ∀ {ss : Scopes}, level? slot ss = none →
    ¬ Binds ss slot
  | [], _, ⟨_, hm, _⟩ => by cases hm
  | sc :: ss, h, ⟨sc', hm, value, hb⟩ => by
    rw [level?] at h
    split at h
    · cases h
    · rename_i hnone
      rcases List.mem_cons.mp hm with rfl | hm
      · exact hnone (Assoc.lookup_isSome_of_mem hb)
      · exact not_binds_of_level? h ⟨sc', hm, value, hb⟩

/-- The level at which a slot is bound is the length of the path of a scope that binds it. -/
theorem All.of_level? {level : Nat} :
    ∀ {ss : Scopes}, Shaped ss → All P ss → level? slot ss = some level →
      ∃ q sc, q <+: path ss ∧ q.length = level ∧ P q sc ∧ ∃ value, (slot, value) ∈ sc.bindings := by
  intro ss hs
  induction hs with
  | @body sc hk =>
    intro hall h
    rw [level?] at h
    split at h
    · rename_i hsome
      obtain ⟨value, hv⟩ := Option.isSome_iff_exists.mp hsome
      cases h
      exact ⟨_, sc, List.prefix_rfl, by simp [path, hk], hall.1, value, Assoc.mem_of_lookup hv⟩
    · cases h
  | @block sc ss k hk rest ih =>
    intro hall h
    rw [level?] at h
    split at h
    · rename_i hsome
      obtain ⟨value, hv⟩ := Option.isSome_iff_exists.mp hsome
      cases h
      refine ⟨_, sc, List.prefix_rfl, ?_, hall.1, value, Assoc.mem_of_lookup hv⟩
      simpa [top] using (Shaped.block hk rest).length_path
    · obtain ⟨q, sc', hq, hrest⟩ := ih hall.2 h
      exact ⟨q, sc', hq.trans (path_tail_encloses sc ss), hrest⟩

/-! ### Scopes that differ in their captures -/

theorem path_sameAs (h : List.Forall₂ Scope.SameAs ss ss') : path ss' = path ss := by
  induction h with
  | nil => rfl
  | cons hs _ ih => rw [path_cons, path_cons, ih, hs.key]

theorem Shaped.sameAs (hs : Shaped ss) (h : List.Forall₂ Scope.SameAs ss ss') : Shaped ss' := by
  induction hs generalizing ss' with
  | body hk =>
    cases h with
    | cons h₁ h₂ =>
      cases h₂
      exact .body (h₁.key ▸ hk)
  | block hk _ ih =>
    cases h with
    | cons h₁ h₂ => exact .block (h₁.key ▸ hk) (ih h₂)

theorem All.sameAs (hP : ∀ q a b, Scope.SameAs a b → P q a → P q b) (hall : All P ss)
    (h : List.Forall₂ Scope.SameAs ss ss') : All P ss' := by
  induction h with
  | nil => trivial
  | @cons a b ss ss' hs hss ih =>
    refine ⟨?_, ih hall.2⟩
    rw [path_sameAs (List.Forall₂.cons hs hss)]
    exact hP _ a b hs hall.1

theorem binds_sameAs (h : List.Forall₂ Scope.SameAs ss ss') : Binds ss' slot ↔ Binds ss slot := by
  induction h with
  | nil => rfl
  | cons hs _ ih =>
    simp only [Binds, List.mem_cons, exists_eq_or_imp, hs.bindings] at ih ⊢
    rw [ih]

end Scopes

theorem State.fetch_sameAs (s : State) (e : Endpoint) :
    List.Forall₂ Scope.SameAs s.scopes (s.fetch e).2.scopes := by
  unfold State.fetch
  split
  · exact Scopes.lookup?_sameAs ‹_›
  · exact List.forall₂_same.mpr fun a _ => .refl a

end VisualScript
