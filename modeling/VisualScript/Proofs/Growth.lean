import VisualScript.Proofs.Scopes
import VisualScript.Proofs.Walking

/-!
# Proofs — Growth

A pass never takes anything back from an open scope.  Bindings are put in front of the earlier ones,
captures and waiting declarations behind them (`Scope.Grows`); what is read adds declarations only
(`growing`).  Declarations wait in the scopes below the current one, never in the current one itself
(`waiting`).
-/

namespace VisualScript

open Evaluation

/-- The scope has kept what was in it. -/
structure Scope.Grows (a b : Scope) : Prop where
  key      : b.key = a.key
  isThread : b.isThread = a.isThread
  bindings : a.bindings <:+ b.bindings
  captures : a.captures <+: b.captures
  hoisted  : ∃ c : Code, c.Flat ∧ b.hoisted = a.hoisted ++ c

namespace Scope.Grows

theorem refl (a : Scope) : a.Grows a :=
  ⟨rfl, rfl, List.suffix_rfl, List.prefix_rfl, .done, trivial, by simp⟩

theorem trans {a b c : Scope} (h₁ : a.Grows b) (h₂ : b.Grows c) : a.Grows c := by
  obtain ⟨d₁, hf₁, hd₁⟩ := h₁.hoisted
  obtain ⟨d₂, hf₂, hd₂⟩ := h₂.hoisted
  exact ⟨h₂.key.trans h₁.key, h₂.isThread.trans h₁.isThread, h₁.bindings.trans h₂.bindings,
    h₁.captures.trans h₂.captures, d₁ ++ d₂, by simp [hf₁, hf₂],
    by rw [hd₂, hd₁, Code.append_assoc]⟩

theorem bind (a : Scope) (slot : Endpoint) (value : Expr) : a.Grows (a.bind slot value) :=
  ⟨rfl, rfl, List.suffix_cons _ _, List.prefix_rfl, .done, trivial, by simp [Scope.bind]⟩

theorem capture (a : Scope) (name : String) : a.Grows (a.capture name) := by
  unfold Scope.capture
  split
  · exact refl a
  · exact ⟨rfl, rfl, List.suffix_rfl, List.prefix_append _ _, .done, trivial, by simp⟩

end Scope.Grows

namespace Scopes

/-- Every scope has kept what was in it. -/
inductive Grow : Scopes → Scopes → Prop where
  | nil : Grow [] []
  | cons {a b : Scope} {ss ss' : Scopes} (h : a.Grows b) (t : Grow ss ss') :
      Grow (a :: ss) (b :: ss')

theorem Grow.refl : ∀ ss : Scopes, Grow ss ss
  | []      => .nil
  | a :: ss => .cons (.refl a) (refl ss)

theorem Grow.append {rs ss ss' : Scopes} (h : Grow ss ss') : Grow (rs ++ ss) (rs ++ ss') := by
  induction rs with
  | nil => exact h
  | cons a rs ih => exact .cons (.refl a) ih

theorem Grow.trans {ss ss' ss'' : Scopes} (h₁ : Grow ss ss') (h₂ : Grow ss' ss'') :
    Grow ss ss'' := by
  induction h₁ generalizing ss'' with
  | nil => cases h₂; exact .nil
  | cons h _ ih =>
    cases h₂ with
    | cons h' ht => exact .cons (h.trans h') (ih ht)

theorem Grow.modifyTop {ss ss' : Scopes} (h : Grow ss ss') {f : Scope → Scope}
    (hf : ∀ sc : Scope, sc.Grows (f sc)) : Grow ss (modifyTop f ss') := by
  cases h with
  | nil => exact .nil
  | cons h ht => exact .cons (h.trans (hf _)) ht

theorem Grow.bind {ss ss' : Scopes} (h : Grow ss ss') (slot : Endpoint) (value : Expr) :
    Grow ss (bind slot value ss') := h.modifyTop fun sc => .bind sc slot value

theorem lookup?_grow {slot : Endpoint} : ∀ {ss ss' : Scopes} {value : Expr},
    lookup? slot ss = some (value, ss') → Grow ss ss'
  | [], _, _, h => by cases h
  | sc :: ss, ss', value, h => by
    rw [lookup?] at h
    split at h
    · cases h
      exact .refl _
    · split at h
      · rename_i e ts hl
        cases h
        refine .cons ?_ (lookup?_grow hl)
        split
        · exact .capture _ _
        · exact .refl _
      · cases h

end Scopes

open Scopes

theorem State.fetch_grow (s : State) (e : Endpoint) : Grow s.scopes (s.fetch e).2.scopes := by
  unfold State.fetch
  split
  · rename_i value ss hl
    exact lookup?_grow hl
  · exact .refl _

/-- Scopes that have grown below the hidden ones. -/
theorem State.raise_grow {s t : State} {hidden : Nat} {code : Code} (hc : code.Flat)
    (h : Grow (s.lower hidden).scopes t.scopes) :
    Grow s.scopes (s.raise hidden code t).2.scopes ∧ (s.raise hidden code t).1.Flat := by
  unfold State.raise
  split
  · rename_i h0
    subst h0
    exact ⟨h, hc⟩
  · refine ⟨?_, trivial⟩
    have hmod : Grow (s.scopes.drop hidden)
        (modifyTop (fun sc => { sc with hoisted := sc.hoisted ++ code }) t.scopes) :=
      h.modifyTop fun sc => ⟨rfl, rfl, List.suffix_rfl, List.prefix_rfl, code, hc, rfl⟩
    conv_lhs => rw [← List.take_append_drop hidden s.scopes]
    exact hmod.append

theorem Evaluation.declare_grow (n : PlacedNode) : ∀ (outputs : List (String × Expr)) (s : State),
    Grow s.scopes (declare n outputs s).2.scopes ∧ (declare n outputs s).1.Flat
  | [], s => ⟨.refl _, trivial⟩
  | (name, value) :: outputs, s => by
    rw [declare]
    split
    · exact declare_grow n outputs s
    · rename_i port hp
      obtain ⟨h₁, h₂⟩ := declare_grow n outputs
        ((s.freshVar n.definition.varStem).2.bind ⟨n.node.id, port.id⟩
          (.ofVar (s.freshVar n.definition.varStem).1))
      exact ⟨((Grow.refl s.scopes).bind _ _).trans h₁, h₂⟩

/-- A read adds declarations and takes nothing back. -/
theorem Evaluation.growing (x : Index) (pass : Pass) :
    Fetching x pass (fun _ _ s _ code s' => Grow s.scopes s'.scopes ∧ code.Flat)
      (fun _ _ _ _ s _ code s' => Grow s.scopes s'.scopes ∧ code.Flat) := by
  constructor
  case bound =>
    intro pending e s n value ss hn hl
    exact ⟨note_scopes x pass n s ▸ lookup?_grow hl, trivial⟩
  case inline =>
    intro pending e s n r inputs code s₁ em s₂ value hn _ hx _ _ _ _ hI hem _
    obtain ⟨-, rfl, -, -⟩ := emit_ok hem
    exact ⟨note_scopes x pass n s ▸ hI.1, hI.2⟩
  case temporary =>
    intro pending e s n r hidden inputs code s₁ em s₂ value hn _ hx _ _ _ _ _ hI hem _ made placed
    obtain ⟨hmade, hflat⟩ := declare_grow n em.outputs s₂
    rw [emit_scopes hem] at hmade
    have hlow : Grow ((note x pass n s).lower hidden).scopes made.2.scopes := hI.1.trans hmade
    obtain ⟨h₁, h₂⟩ := State.raise_grow (show (code ++ made.1).Flat by simpa using ⟨hI.2, hflat⟩) hlow
    exact ⟨(note_scopes x pass n s ▸ h₁).trans (State.fetch_grow _ e), h₂⟩
  case nil => exact ⟨.refl _, trivial⟩
  case skip => exact fun _ h => h
  case connected => exact fun _ _ h₁ _ h₂ => ⟨h₁.1.trans h₂.1, by simpa using ⟨h₁.2, h₂.2⟩⟩
  case literal => exact fun _ _ _ h => h

/-! ### Waiting declarations -/

@[simp] theorem Walk.hoisted_bind (s : State) (slot : Endpoint) (value : Expr) :
    Walk.hoisted (s.bind slot value) = Walk.hoisted s := by
  obtain ⟨scopes, counter, reads⟩ := s
  cases scopes <;> rfl

theorem Walk.hoisted_sameAs {s s' : State} (h : List.Forall₂ Scope.SameAs s.scopes s'.scopes) :
    Walk.hoisted s' = Walk.hoisted s := by
  obtain ⟨scopes, counter, reads⟩ := s
  obtain ⟨scopes', counter', reads'⟩ := s'
  cases h with
  | nil => rfl
  | cons h _ => exact h.hoisted.symm

theorem State.hoisted_fetch (s : State) (e : Endpoint) :
    Walk.hoisted (s.fetch e).2 = Walk.hoisted s :=
  Walk.hoisted_sameAs (s.fetch_sameAs e)

theorem Evaluation.hoisted_declare (n : PlacedNode) (outputs : List (String × Expr)) (s : State) :
    Walk.hoisted (declare n outputs s).2 = Walk.hoisted s :=
  declare_induct (P := (Walk.hoisted · = Walk.hoisted s)) rfl fun _ _ _ _ _ _ ht =>
    (Walk.hoisted_bind _ _ _).trans ht

/-- What is read for the current block waits nowhere, or in a block further out. -/
theorem Evaluation.waiting (x : Index) (pass : Pass) :
    Fetching x pass (fun _ _ s _ _ s' => Walk.hoisted s' = Walk.hoisted s)
      (fun _ _ _ _ s _ _ s' => Walk.hoisted s' = Walk.hoisted s) := by
  have hnote : ∀ n s, Walk.hoisted (note x pass n s) = Walk.hoisted s := fun n s => by
    simp only [Walk.hoisted, note_scopes]
  constructor
  case bound =>
    intro pending e s n value ss hn hl
    exact (Walk.hoisted_sameAs (lookup?_sameAs hl)).trans (hnote n s)
  case inline =>
    intro pending e s n r inputs code s₁ em s₂ value hn _ hx _ _ _ _ hI hem _
    obtain ⟨-, rfl, -, -⟩ := emit_ok hem
    exact hI.trans (hnote n s)
  case temporary =>
    intro pending e s n r hidden inputs code s₁ em s₂ value hn _ hx _ _ _ hhidden _ hI hem _ made
      placed
    have hmade : Walk.hoisted made.2 = Walk.hoisted ((note x pass n s).lower hidden) := by
      rw [hoisted_declare, ← hI]
      simp only [Walk.hoisted, emit_scopes hem]
    rw [State.hoisted_fetch, ← hnote n s]
    -- a scope that is hidden keeps what waits in it
    by_cases h0 : hidden = 0
    · subst h0
      exact hmade
    · have hne : (note x pass n s).scopes ≠ [] := by
        rintro hnil
        rw [hnil] at hhidden
        exact h0 (by simpa [top] using hhidden)
      obtain ⟨sc, ss, hss⟩ := List.exists_cons_of_ne_nil hne
      obtain ⟨k, rfl⟩ := Nat.exists_eq_succ_of_ne_zero h0
      rw [note_scopes] at hss
      simp [placed, State.raise, Walk.hoisted, hss]
  case nil => intros; rfl
  case skip => exact fun _ h => h
  case connected => exact fun _ _ h₁ _ h₂ => h₂.trans h₁
  case literal => exact fun _ _ _ h => h

end VisualScript
