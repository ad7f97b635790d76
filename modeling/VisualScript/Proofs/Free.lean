import VisualScript.Proofs.Code
import VisualScript.Proofs.Tables

/-!
# Proofs — Free

The variables a body needs from outside.  A line `local v = …` declares `v` for the lines below it
in its block and in the blocks nested there; so does a temporary.  The variables of a loop header
are visible in the header and in the block it stands in front of.  `Code.free` collects the
variables that are used where no such declaration reaches them.

A thread counts as a block at the place where it is started.
-/

namespace VisualScript

namespace Expr

/-- The variables a line declares for the rest of its block. -/
def declared : Expr → List String
  | .text "local " :: .var v :: _            => [v]
  | .text "CustomWeaponData " :: .var v :: _ => [v]
  | _                                        => []

/-- The variables a loop header declares for the block below it. -/
def loopVars : Expr → List String
  | .text "for (int " :: .var i :: _                                  => [i]
  | .text "foreach (int " :: .var i :: .text ", var " :: .var v :: _  => [i, v]
  | _                                                                 => []

/-- The variables a line needs. -/
def uses : Expr → List String
  | .text "local " :: .var _ :: value           => vars value
  | .text "CustomWeaponData " :: .var _ :: rest => vars rest
  | e                                           => (vars e).filter (· ∉ loopVars e)

end Expr

/-- The variables that the resolved inputs of a node mention. -/
def Inputs.vars (inputs : Inputs) : List String :=
  inputs.flatMap fun (_, value) => (value.map Expr.vars).getD []

namespace Code

/-- The variables a body declares outside its nested blocks. -/
def declared : Code → List String
  | done                   => []
  | mark _ _ _ rest        => declared rest
  | line t rest            => t.declared ++ declared rest
  | declare _ v _ rest     => v :: declared rest
  | block _ _ rest         => declared rest
  | thread _ _ _ _ rest    => declared rest

/-- The variables a body uses without a declaration that reaches them, where `loop` are the variables
of a loop header directly above the body.  The inputs of a node are used where its statements
begin. -/
def free (loop : List String) : Code → List String
  | done                    => []
  | mark _ inputs _ rest    => inputs.vars ++ free [] rest
  | line t rest             =>
      t.uses ++ (free (if t = Expr.ofText "\x7b" then loop else t.loopVars) rest).filter
        (· ∉ t.declared)
  | declare _ v value rest  => value.vars ++ (free [] rest).filter (· ≠ v)
  | block _ body rest       => (free [] body).filter (· ∉ loop) ++ free [] rest
  | thread _ _ _ body rest  => free [] body ++ free [] rest

/-! ### Appending -/

@[simp] theorem declared_append (c d : Code) : (c ++ d).declared = c.declared ++ d.declared := by
  induction c <;> simp_all [declared]

@[simp] theorem threads_append (c d : Code) : (c ++ d).threads = c.threads ++ d.threads := by
  induction c <;> simp_all [threads]

@[simp] theorem threads_ofLines (ls : List String) : (ofLines ls).threads = [] := by
  induction ls <;> simp_all [ofLines, threads]

theorem Flat.threads_eq : ∀ {c : Code}, c.Flat → c.threads = []
  | .done, _ => rfl
  | .declare _ _ _ rest, h => by
    have h : rest.Flat := h
    exact h.threads_eq

/-- Fewer loop variables leave more free. -/
theorem mem_free_mono {v : String} {loop loop' : List String} {c : Code} (h : v ∈ c.free loop)
    (hl : ∀ u ∈ loop', u ∈ loop) : v ∈ c.free loop' := by
  induction c generalizing loop loop' with
  | done | mark | declare | thread => exact h
  | line t rest ih =>
    rw [free] at h ⊢
    rcases List.mem_append.mp h with h | h
    · exact List.mem_append_left _ h
    · refine List.mem_append_right _ ?_
      obtain ⟨h, hd⟩ := List.mem_filter.mp h
      refine List.mem_filter.mpr ⟨?_, hd⟩
      by_cases hb : t = Expr.ofText "\x7b"
      · rw [if_pos hb] at h ⊢
        exact ih h hl
      · rwa [if_neg hb] at h ⊢
  | block k body rest _ _ =>
    rw [free] at h ⊢
    rcases List.mem_append.mp h with h | h
    · obtain ⟨h, hn⟩ := List.mem_filter.mp h
      refine List.mem_append_left _ (List.mem_filter.mpr ⟨h, ?_⟩)
      simp only [decide_eq_true_eq] at hn ⊢
      exact fun hm => hn (hl v hm)
    · exact List.mem_append_right _ h

/-- What is declared first is not free behind it. -/
theorem mem_free_append {v : String} {loop : List String} {c d : Code}
    (h : v ∈ (c ++ d).free loop) : v ∈ c.free loop ∨ v ∈ d.free [] ∧ v ∉ c.declared := by
  induction c generalizing loop with
  | done => exact .inr ⟨mem_free_mono h (by simp), by simp [declared]⟩
  | mark n inputs vars rest ih =>
    rw [mark_append, free] at h
    rcases List.mem_append.mp h with h | h
    · exact .inl (List.mem_append_left _ h)
    · exact (ih h).imp_left (List.mem_append_right _)
  | line t rest ih =>
    rw [line_append, free] at h
    rcases List.mem_append.mp h with h | h
    · exact .inl (List.mem_append_left _ h)
    · obtain ⟨h, hd⟩ := List.mem_filter.mp h
      refine (ih h).imp (fun h => ?_) fun h => ⟨h.1, ?_⟩
      · exact List.mem_append_right _ (List.mem_filter.mpr ⟨h, hd⟩)
      · rw [declared, List.mem_append, not_or]
        exact ⟨by simpa using hd, h.2⟩
  | declare slot w value rest ih =>
    rw [declare_append, free] at h
    rcases List.mem_append.mp h with h | h
    · exact .inl (List.mem_append_left _ h)
    · obtain ⟨h, hd⟩ := List.mem_filter.mp h
      refine (ih h).imp (fun h => ?_) fun h => ⟨h.1, ?_⟩
      · exact List.mem_append_right _ (List.mem_filter.mpr ⟨h, hd⟩)
      · rw [declared, List.mem_cons, not_or]
        exact ⟨by simpa using hd, h.2⟩
  | block k body rest _ ih | thread k name captures body rest _ ih =>
    rcases List.mem_append.mp h with h | h
    · exact .inl (List.mem_append_left _ h)
    · exact (ih h).imp_left (List.mem_append_right _)

@[simp] theorem free_ofLines (loop : List String) (ls : List String) :
    (ofLines ls).free loop = [] := by
  induction ls generalizing loop with
  | nil => rfl
  | cons s ls ih => simp [ofLines, free, ih, Expr.uses, Expr.ofText, Expr.vars]

end Code

namespace Expr

@[simp] theorem vars_append (a b : Expr) : vars (a ++ b) = a.vars ++ b.vars :=
  List.filterMap_append

@[simp] theorem vars_ofVar (v : String) : (ofVar v).vars = [v] := rfl

@[simp] theorem vars_ofText (s : String) : (ofText s).vars = [] := rfl

theorem mem_vars_of_mem_declared {v : String} {e : Expr} (h : v ∈ e.declared) : v ∈ e.vars := by
  unfold declared at h
  split at h <;> simp_all [vars]

theorem mem_vars_of_mem_uses {v : String} {e : Expr} (h : v ∈ e.uses) : v ∈ e.vars := by
  unfold uses at h
  split at h
  · exact List.mem_cons_of_mem _ h
  · exact List.mem_cons_of_mem _ h
  · exact (List.mem_filter.mp h).1

theorem not_mem_loopVars_of_mem_uses {v : String} {e : Expr} (h : v ∈ e.uses) :
    v ∉ e.loopVars := by
  unfold uses at h
  split at h
  · simp [loopVars]
  · simp [loopVars]
  · simpa using (List.mem_filter.mp h).2

end Expr

/-! ### Filling in -/

namespace Inputs

theorem mem_vars_of_lookup {inputs : Inputs} {name v : String} {e : Expr}
    (h : inputs.lookup name = some (some e)) (hv : v ∈ e.vars) : v ∈ inputs.vars :=
  List.mem_flatMap.mpr ⟨_, Assoc.mem_of_lookup h, hv⟩

/-- An input that is set adds the variables of its value. -/
theorem mem_vars_set {name v : String} {value : Option Expr} : ∀ {inputs : Inputs},
    v ∈ Inputs.vars (Assoc.set name value inputs) →
      (∃ e, value = some e ∧ v ∈ e.vars) ∨ v ∈ inputs.vars
  | [], h => by
    cases value with
    | none => simp [Assoc.set, vars] at h
    | some e => exact .inl ⟨e, rfl, by simpa [Assoc.set, vars] using h⟩
  | (k, w) :: inputs, h => by
    rw [Assoc.set] at h
    split at h
    · rcases List.mem_append.mp h with h | h
      · cases value with
        | none => cases h
        | some e => exact .inl ⟨e, rfl, h⟩
      · exact .inr (List.mem_append_right _ h)
    · rcases List.mem_append.mp h with h | h
      · exact .inr (List.mem_append_left _ h)
      · exact (mem_vars_set h).imp_right (List.mem_append_right _)

end Inputs

namespace Template

variable {inputs : Inputs} {v : String} {vars : List String} {t : Template}

/-- The fresh variables of a template. -/
def freshes (t : Template) : List Nat :=
  t.filterMap fun
    | .fresh i => some i
    | _        => none

/-- The fresh variables that the line made from a template declares for the rest of its block. -/
def declares : Template → List Nat
  | .text "local " :: .fresh i :: _            => [i]
  | .text "CustomWeaponData " :: .fresh i :: _ => [i]
  | _                                          => []

/-- The fresh variables that a loop header made from a template declares. -/
def heads : Template → List Nat
  | .text "for (int " :: .fresh i :: _                                      => [i]
  | .text "foreach (int " :: .fresh i :: .text ", var " :: .fresh j :: _    => [i, j]
  | _                                                                       => []

/-- The fresh variables that have to be declared above the line made from a template. -/
def needs : Template → List Nat
  | .text "local " :: .fresh _ :: value           => freshes value
  | .text "CustomWeaponData " :: .fresh _ :: rest => freshes rest
  | t                                             => (freshes t).filter (· ∉ heads t)

theorem mem_vars_inputText {name v : String} (h : v ∈ (inputText inputs name).vars) :
    v ∈ inputs.vars := by
  unfold inputText at h
  split at h
  · rename_i e he
    exact Inputs.mem_vars_of_lookup he h
  · cases h
  · cases h

/-- A filled template mentions variables of its inputs and fresh ones. -/
theorem mem_vars_fill : ∀ {t : Template},
    v ∈ (t.fill inputs vars).vars → v ∈ inputs.vars ∨ ∃ i ∈ t.freshes, v = vars.getD i ""
  | [], h => by cases h
  | piece :: t, h => by
    have hcons : Template.fill inputs vars (piece :: t) =
        Template.fill inputs vars [piece] ++ Template.fill inputs vars t := by simp [fill]
    rw [hcons, Expr.vars_append, List.mem_append] at h
    rcases h with h | h
    · cases piece with
      | text s => cases h
      | input name =>
        have hfill : fill inputs vars [.input name] = inputText inputs name := by simp [fill]
        exact .inl (mem_vars_inputText (hfill ▸ h))
      | fresh i => exact .inr ⟨i, by simp [freshes], List.mem_singleton.mp h⟩
    · refine (mem_vars_fill h).imp_right fun ⟨i, hi, he⟩ => ⟨i, ?_, he⟩
      unfold freshes at hi ⊢
      rw [List.filterMap_cons]
      split <;> simp [hi]

/-- What a filled template declares, if the template does. -/
theorem mem_declared_fill {i : Nat} (h : i ∈ t.declares) :
    vars.getD i "" ∈ (t.fill inputs vars).declared := by
  unfold declares at h
  split at h <;> simp_all [fill, Expr.ofText, Expr.ofVar, Expr.declared]

theorem mem_loopVars_fill {i : Nat} (h : i ∈ t.heads) :
    vars.getD i "" ∈ (t.fill inputs vars).loopVars := by
  unfold heads at h
  split at h
  · simp_all [fill, Expr.ofText, Expr.ofVar, Expr.loopVars]
  · rcases List.mem_cons.mp h with rfl | h
    · simp [fill, Expr.ofText, Expr.ofVar, Expr.loopVars]
    · simp_all [fill, Expr.ofText, Expr.ofVar, Expr.loopVars]
  · cases h

/-- A filled template needs variables of its inputs and the fresh ones the template needs. -/
theorem mem_uses_fill (h : v ∈ (t.fill inputs vars).uses) :
    v ∈ inputs.vars ∨ ∃ i ∈ t.needs, v = vars.getD i "" := by
  unfold needs
  split
  · exact mem_vars_fill h
  · exact mem_vars_fill h
  · refine (mem_vars_fill (Expr.mem_vars_of_mem_uses h)).imp_right fun ⟨i, hi, he⟩ => ⟨i, ?_, he⟩
    refine List.mem_filter.mpr ⟨hi, ?_⟩
    simp only [decide_eq_true_eq]
    exact fun hm => Expr.not_mem_loopVars_of_mem_uses h (he ▸ mem_loopVars_fill hm)

end Template

end VisualScript
