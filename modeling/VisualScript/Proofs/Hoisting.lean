import VisualScript.Proofs.Growth
import VisualScript.Proofs.Legible

/-!
# Proofs — Hoisting

Reading with hidden scopes.  A temporary that is declared further out is evaluated with the inner
scopes hidden; the floor of its placement keeps visible what the evaluation needs (`floor_spec`,
`Readable.lower`).  So every value that is legible where it is read can be read in the placing pass,
wherever its temporaries are declared (`Evaluation.inputs_of_legible`).
-/

namespace VisualScript

open Evaluation Scopes

variable {ss : Scopes} {slot : Endpoint} {x : Index}

theorem Scopes.Grow.binds {ss ss' : Scopes} (h : Grow ss ss') (hb : Binds ss slot) :
    Binds ss' slot := by
  induction h with
  | nil => exact hb
  | cons hab _ ih =>
    obtain ⟨sc, hm, value, hv⟩ := hb
    rcases List.mem_cons.mp hm with rfl | hm
    · exact ⟨_, .head _, value, hab.bindings.subset hv⟩
    · obtain ⟨sc', hm', hb'⟩ := ih ⟨sc, hm, value, hv⟩
      exact ⟨sc', .tail _ hm', hb'⟩

theorem Scopes.Grow.ne_nil {ss ss' : Scopes} (h : Grow ss ss') (hne : ss ≠ []) : ss' ≠ [] := by
  cases h with
  | nil => exact hne
  | cons => simp

/-! ### The floor of a placement -/

namespace Scopes

theorem level?_le_top {slot : Endpoint} {level : Nat} : ∀ {ss : Scopes},
    level? slot ss = some level → level ≤ top ss
  | sc :: ss, h => by
    rw [level?] at h
    split at h
    · cases h
      simp [top]
    · have := level?_le_top h
      simp only [top, List.length_cons] at this ⊢
      omega

/-- A slot that is bound no deeper than a level is bound where only the scopes up to that level are
visible. -/
theorem binds_drop_of_level? {slot : Endpoint} {found level : Nat} : ∀ {ss : Scopes},
    level? slot ss = some found → found ≤ level → Binds (ss.drop (top ss - level)) slot
  | sc :: ss, h, hle => by
    rw [level?] at h
    split at h
    · rename_i hsome
      obtain ⟨value, hv⟩ := Option.isSome_iff_exists.mp hsome
      cases h
      have h0 : top (sc :: ss) - level = 0 := by simp only [top, List.length_cons]; omega
      rw [h0]
      exact ⟨sc, .head _, value, Assoc.mem_of_lookup hv⟩
    · have ih := binds_drop_of_level? h hle
      by_cases hl : ss.length ≤ level
      · have h0 : top (sc :: ss) - level = 0 := by simp only [top, List.length_cons]; omega
        obtain ⟨sc', hm, hb⟩ := ih.of_drop
        exact h0 ▸ ⟨sc', .tail _ hm, hb⟩
      · have h1 : top (sc :: ss) - level = top ss - level + 1 := by
          simp only [top, List.length_cons]; omega
        rw [h1]
        exact ih

end Scopes

/-- The floor accounts for a source: it is bound no deeper, or it is not bound and its node has been
looked at. -/
def Floored (x : Index) (ss : Scopes) (level : Nat) (seen : List String) (e : Endpoint) : Prop :=
  (∃ found, level? e ss = some found ∧ found ≤ level) ∨
    level? e ss = none ∧ (e.node ∈ seen ∨ x.hasExec e.node = true ∧ top ss ≤ level)

theorem Floored.mono {level level' : Nat} {seen seen' : List String} {e : Endpoint}
    (h : Floored x ss level seen e) (hl : level ≤ level') (hs : ∀ a ∈ seen, a ∈ seen') :
    Floored x ss level' seen' e :=
  h.imp (fun ⟨found, hf, hle⟩ => ⟨found, hf, Nat.le_trans hle hl⟩)
    fun ⟨hnone, h⟩ => ⟨hnone, h.imp (hs _) fun ⟨hx, ht⟩ => ⟨hx, Nat.le_trans ht hl⟩⟩

/-- The floor accounts for what feeds each of the nodes `ids`. -/
def FloorsAll (x : Index) (ss : Scopes) (level : Nat) (seen : List String)
    (ids : String → Prop) : Prop :=
  ∀ id, ids id → ∀ n, x.node? id = some n → ∀ e, Feeds x n e → Floored x ss level seen e

/-- What a search that starts at `acc` has come to: it has looked at more nodes, and the level
accounts for what feeds the new ones. -/
structure Floors (x : Index) (ss : Scopes) (acc result : Nat × List String) : Prop where
  level : acc.1 ≤ result.1
  below : result.1 ≤ top ss
  seen  : ∀ a ∈ acc.2, a ∈ result.2
  new   : FloorsAll x ss result.1 result.2 fun id => id ∈ result.2 ∧ id ∉ acc.2

theorem Floors.trans {a b c : Nat × List String} (h₁ : Floors x ss a b) (h₂ : Floors x ss b c) :
    Floors x ss a c := by
  refine ⟨Nat.le_trans h₁.level h₂.level, h₂.below, fun i hi => h₂.seen i (h₁.seen i hi), ?_⟩
  rintro id ⟨hc, ha⟩ n hn e he
  by_cases hb : id ∈ b.2
  · exact (h₁.new id ⟨hb, ha⟩ n hn e he).mono h₂.level h₂.seen
  · exact h₂.new id ⟨hc, hb⟩ n hn e he

/-- One source of a node, where `below` looks at its node. -/
def Evaluation.floorStep (x : Index) (ss : Scopes)
    (below : String → List String → Nat × List String) (acc : Nat × List String) (e : Endpoint) :
    Nat × List String :=
  match level? e ss with
  | some found => (max acc.1 found, acc.2)
  | none       =>
      if x.hasExec e.node then (top ss, acc.2)
      else (max acc.1 (below e.node acc.2).1, (below e.node acc.2).2)

theorem Evaluation.floor_succ (x : Index) (ss : Scopes) (fuel : Nat) {id : String} {n : PlacedNode}
    {seen : List String} (hid : id ∉ seen) (hn : x.node? id = some n) :
    floor x ss (fuel + 1) id seen =
      ((n.definition.inputs.filter (·.kind == .data)).filterMap (source? x n)).foldl
        (floorStep x ss (floor x ss fuel)) (0, id :: seen) := by
  rw [floor, if_neg hid, hn]
  rfl

theorem Floors.step {below : String → List String → Nat × List String} {acc : Nat × List String}
    (e : Endpoint) (htop : acc.1 ≤ top ss)
    (hb : Floors x ss (0, acc.2) (below e.node acc.2) ∧ e.node ∈ (below e.node acc.2).2) :
    Floors x ss acc (floorStep x ss below acc e) ∧
      Floored x ss (floorStep x ss below acc e).1 (floorStep x ss below acc e).2 e := by
  unfold floorStep
  split
  · rename_i found hf
    have hle := level?_le_top hf
    exact ⟨⟨Nat.le_max_left _ _, Nat.max_le.mpr ⟨htop, hle⟩, fun _ h => h,
      fun _ h => absurd h.1 h.2⟩, .inl ⟨found, hf, Nat.le_max_right _ _⟩⟩
  · rename_i hnone
    split
    · rename_i hx
      exact ⟨⟨htop, Nat.le_refl _, fun _ h => h, fun _ h => absurd h.1 h.2⟩,
        .inr ⟨hnone, .inr ⟨hx, Nat.le_refl _⟩⟩⟩
    · obtain ⟨hb, hmem⟩ := hb
      refine ⟨⟨Nat.le_max_left _ _, Nat.max_le.mpr ⟨htop, hb.below⟩, hb.seen, ?_⟩,
        .inr ⟨hnone, .inl hmem⟩⟩
      exact fun id hid n hn e' he' =>
        (hb.new id hid n hn e' he').mono (Nat.le_max_right _ _) fun _ h => h

theorem Floors.foldl {below : String → List String → Nat × List String} (fuel : Nat)
    (hb : ∀ id seen, x.remaining seen < fuel →
      Floors x ss (0, seen) (below id seen) ∧ id ∈ (below id seen).2) :
    ∀ (es : List Endpoint) (acc : Nat × List String), acc.1 ≤ top ss →
      x.remaining acc.2 < fuel →
      let result := es.foldl (floorStep x ss below) acc
      Floors x ss acc result ∧ ∀ e ∈ es, Floored x ss result.1 result.2 e
  | [], acc, htop, _ =>
    ⟨⟨Nat.le_refl _, htop, fun _ h => h, fun _ h => absurd h.1 h.2⟩, by simp⟩
  | e :: es, acc, htop, hfuel => by
    obtain ⟨hstep, hfed⟩ := Floors.step e htop (hb e.node acc.2 hfuel)
    obtain ⟨hrest, hall⟩ := Floors.foldl fuel hb es (floorStep x ss below acc e) hstep.below
      (Nat.lt_of_le_of_lt (Index.remaining_le hstep.seen) hfuel)
    refine ⟨hstep.trans hrest, fun e' he' => ?_⟩
    rcases List.mem_cons.mp he' with rfl | he'
    · exact hfed.mono hrest.level hrest.seen
    · exact hall e' he'

/-- **The floor of a node** accounts for everything that feeds it, directly or through nodes that
have not been evaluated. -/
theorem Evaluation.floor_spec (x : Index) (ss : Scopes) : ∀ (fuel : Nat) (id : String)
    (seen : List String), x.remaining seen < fuel →
      Floors x ss (0, seen) (floor x ss fuel id seen) ∧ id ∈ (floor x ss fuel id seen).2 := by
  intro fuel
  induction fuel with
  | zero => exact fun _ _ h => absurd h (Nat.not_lt_zero _)
  | succ fuel ih =>
    intro id seen hfuel
    by_cases hid : id ∈ seen
    · rw [floor, if_pos hid]
      exact ⟨⟨Nat.le_refl _, Nat.zero_le _, fun _ h => h, fun _ h => absurd h.1 h.2⟩, hid⟩
    cases hn : x.node? id with
    | none =>
      rw [floor, if_neg hid, hn]
      refine ⟨⟨Nat.le_refl _, Nat.zero_le _, fun _ => .tail _, ?_⟩, .head _⟩
      rintro a ⟨ha, hs⟩ n hn'
      rcases List.mem_cons.mp ha with rfl | ha
      · rw [hn] at hn'
        cases hn'
      · exact absurd ha hs
    | some n =>
      rw [floor_succ x ss fuel hid hn]
      have hmem : id ∈ x.order := List.mem_map.mpr ⟨_, Index.mem_placed hn, rfl⟩
      have hless := Index.remaining_cons_lt hmem hid
      obtain ⟨hall, hfed⟩ := Floors.foldl fuel ih
        ((n.definition.inputs.filter (·.kind == .data)).filterMap (source? x n))
        (0, id :: seen) (Nat.zero_le _) (show x.remaining (id :: seen) < fuel by omega)
      refine ⟨⟨Nat.zero_le _, hall.below, fun a ha => hall.seen a (.tail _ ha), ?_⟩,
        hall.seen id (.head _)⟩
      rintro a ⟨ha, hs⟩ m hm e he
      by_cases hai : a = id
      · subst hai
        obtain rfl := Option.some.inj (hn.symm.trans hm)
        obtain ⟨t, ht, hk, hsrc⟩ := he
        exact hfed e (List.mem_filterMap.mpr
          ⟨t, List.mem_filter.mpr ⟨ht, by simpa using hk⟩, hsrc⟩)
      · exact hall.new a ⟨ha, by simp [hai, hs]⟩ m hm e he

/-- The level of a placement accounts for everything that feeds the node, directly or through nodes
that have not been evaluated. -/
theorem Evaluation.placement_floors (x : Index) (pass : Pass) (ss : Scopes) (id : String) :
    ∃ seen, id ∈ seen ∧ FloorsAll x ss (placement x pass ss id) seen (· ∈ seen) := by
  obtain ⟨hfloor, hid⟩ := floor_spec x ss (x.placed.length + 1) id []
    (by rw [Index.remaining_nil]; omega)
  have hle : (floor x ss (x.placed.length + 1) id []).1 ≤ placement x pass ss id := by
    have := hfloor.below
    cases pass with
    | recording => exact this
    | placing reads =>
      rw [placement]
      omega
  exact ⟨_, hid, fun a ha m hm e hf =>
    (hfloor.new a ⟨ha, by simp⟩ m hm e hf).mono hle fun _ h => h⟩

/-! ### Reading without a cycle -/

/-- The output port can be read where the slots `B` are bound, and its node is not evaluated again
while the nodes `pending` are. -/
inductive Readable (x : Index) (B : Endpoint → Prop) :
    (pending : List String) → Endpoint → (value : Bool) → Prop where
  | bound {pending : List String} {e : Endpoint} {value : Bool} (h : B e) :
      Readable x B pending e value
  | data {pending : List String} {e : Endpoint} {n : PlacedNode} {value : Bool}
      (valued : Endpoint → Bool) (fresh : e.node ∉ pending) (node : Evaluable x e n valued value)
      (sources : ∀ e', Feeds x n e' → Readable x B (e.node :: pending) e' (valued e')) :
      Readable x B pending e value

/-- The evaluation of `b` reads a slot of `a` that is not bound. -/
def Draws (x : Index) (B : Endpoint → Prop) (a b : String) : Prop :=
  ∃ n e, x.node? b = some n ∧ Feeds x n e ∧ ¬ B e ∧ e.node = a

namespace Legible

variable {x : Index} {B : Endpoint → Prop} {e : Endpoint} {value : Bool}

theorem acc (h : Legible x B e value) : ¬ B e → Acc (Draws x B) e.node := by
  induction h with
  | bound h => exact fun hb => absurd h hb
  | data valued hn _ ih =>
    refine fun _ => .intro _ ?_
    rintro _ ⟨n', e', hn', hf, hb, rfl⟩
    obtain rfl := Option.some.inj (hn.node.symm.trans hn')
    exact ih e' hf hb

/-- A legible value can be read while nodes that draw on it are evaluated. -/
theorem readable (h : Legible x B e value) : ∀ {pending : List String},
    (∀ a ∈ pending, ¬ B e → Relation.TransGen (Draws x B) e.node a) →
      Readable x B pending e value := by
  induction h with
  | bound h => exact fun _ => .bound h
  | @data e n value valued hn hs ih =>
    intro pending hp
    by_cases hb : B e
    · exact .bound hb
    refine .data valued (fun hm => ?_) hn fun e' hf => ih e' hf fun a ha hb' => ?_
    · exact not_transGen_of_acc ((Legible.data valued hn hs).acc hb) (hp _ hm hb)
    · have hd : Draws x B e'.node e.node := ⟨n, e', hn.node, hf, hb', rfl⟩
      rcases List.mem_cons.mp ha with rfl | ha
      · exact .single hd
      · exact .head hd (hp a ha hb)

end Legible

namespace Readable

variable {x : Index} {B B' : Endpoint → Prop} {pending : List String} {e : Endpoint} {value : Bool}

theorem mono (h : Readable x B pending e value) (hB : ∀ e, B e → B' e) :
    Readable x B' pending e value := by
  induction h with
  | bound h => exact .bound (hB _ h)
  | data valued hp hn _ ih => exact .data valued hp hn ih

/-- What the floor accounts for can be read with the scopes above the floor hidden. -/
theorem lower {ss : Scopes} {level : Nat} {seen : List String}
    (h : Readable x (Binds ss) pending e value) (hfed : Floored x ss level seen e)
    (hall : FloorsAll x ss level seen (· ∈ seen)) :
    Readable x (Binds (ss.drop (top ss - level))) pending e value := by
  induction h with
  | bound h =>
    rcases hfed with ⟨found, hf, hle⟩ | ⟨hnone, -⟩
    · exact .bound (binds_drop_of_level? hf hle)
    · exact absurd h (not_binds_of_level? hnone)
  | data valued hp hn _ ih =>
    rcases hfed with ⟨found, hf, hle⟩ | ⟨-, hseen | ⟨hx, -⟩⟩
    · exact .bound (binds_drop_of_level? hf hle)
    · exact .data valued hp hn fun e' hf => ih e' hf (hall _ hseen _ hn.node e' hf)
    · rw [Index.hasExec_eq hn.node, hn.data] at hx
      cases hx

/-- What feeds a node can be read at the level of its placement. -/
theorem placed {ss : Scopes} {id : String} {n : PlacedNode}
    (h : Readable x (Binds ss) pending e value) (hn : x.node? id = some n) (hf : Feeds x n e)
    (reads : List (String × Path)) :
    Readable x (Binds (ss.drop (top ss - placement x (.placing reads) ss id))) pending e value := by
  obtain ⟨seen, hid, hall⟩ := placement_floors x (.placing reads) ss id
  exact h.lower (hall id hid n hn e hf) hall

end Readable

/-! ### Reading what is readable -/

theorem Scopes.lookup?_of_binds (h : Binds ss slot) :
    ∃ value ss', lookup? slot ss = some (value, ss') := by
  cases hl : lookup? slot ss with
  | none => exact absurd h (not_binds_of_lookup? hl)
  | some r => exact ⟨r.1, r.2, rfl⟩

theorem State.fetch_of_binds {s : State} (h : Binds s.scopes slot) : (s.fetch slot).1.isSome := by
  obtain ⟨value, ss, hl⟩ := lookup?_of_binds h
  simp [fetch, hl]

/-- What is bound below the hidden scopes stays bound when they come back. -/
theorem State.raise_binds {s t : State} {hidden : Nat} {code : Code} (h : Binds t.scopes slot) :
    Binds (s.raise hidden code t).2.scopes slot := by
  unfold raise
  split
  · exact h
  · have hmod : Binds (modifyTop (fun sc => { sc with hoisted := sc.hoisted ++ code }) t.scopes)
        slot := by
      obtain ⟨sc, hm, value, hv⟩ := h
      cases hts : t.scopes with
      | nil => rw [hts] at hm; cases hm
      | cons a ss =>
        rw [hts] at hm
        rcases List.mem_cons.mp hm with rfl | hm
        · exact ⟨_, .head _, value, hv⟩
        · exact ⟨sc, .tail _ hm, value, hv⟩
    obtain ⟨sc, hm, hv⟩ := hmod
    exact ⟨sc, List.mem_append_right _ hm, hv⟩

namespace Evaluation

variable {s : State} {n : PlacedNode} {valued : Endpoint → Bool}

theorem atLevel_eq {level : Nat} {s t : State} {act : State → Except Failure (Code × State)}
    {code : Code} (h : act (s.lower (top s.scopes - level)) = .ok (code, t)) :
    atLevel level s act = .ok (s.raise (top s.scopes - level) code t) := by
  have hact : act { s with scopes := s.scopes.drop (top s.scopes - level) } = .ok (code, t) := h
  unfold atLevel State.raise
  simp only [hact]
  show (if _ then _ else _) = _
  split <;> rfl

/-- Some scope stays open at every level. -/
theorem lower_ne_nil (hne : s.scopes ≠ []) (level : Nat) :
    (s.lower (top s.scopes - level)).scopes ≠ [] := by
  have : 0 < s.scopes.length := List.length_pos_iff.mpr hne
  refine List.length_pos_iff.mp ?_
  rw [State.lower, List.length_drop, top]
  omega

/-- Declaring temporaries binds the slot of every output that has a port. -/
theorem binds_declare_of_holds {slot : Endpoint} :
    ∀ {outputs : List (String × Expr)} {s : State}, s.scopes ≠ [] →
      n.Holds (outputs.map Prod.fst) slot → Binds (declare n outputs s).2.scopes slot
  | [], _, _, ⟨_, hm, _⟩ => by cases hm
  | (name, value) :: outputs, s, hne, ⟨name', hm, p, hp, hs⟩ => by
    obtain ⟨sc, ss, hss⟩ := List.exists_cons_of_ne_nil hne
    rw [declare]
    rcases List.mem_cons.mp hm with rfl | hm
    · simp only [hp]
      refine (declare_grow n outputs _).1.binds ?_
      rw [hs]
      simp only [State.bind, State.freshVar, hss, Scopes.bind, modifyTop]
      exact ⟨_, .head _, _, .head _⟩
    · split
      · exact binds_declare_of_holds hne ⟨name', hm, p, hp, hs⟩
      · refine binds_declare_of_holds ?_ ⟨name', hm, p, hp, hs⟩
        simp [State.bind, State.freshVar, hss, Scopes.bind, modifyTop]

variable {catalog : Catalog} {nodes : List Node} {connections : List Connection} {x : Index}
  {reads : List (String × Path)} {fuel : Nat} {pending : List String}

/-- Reading succeeds where it can. -/
def Reads (x : Index) (reads : List (String × Path)) (fuel : Nat) (pending : List String) : Prop :=
  ∀ e n value s, x.node? e.node = some n → s.scopes ≠ [] →
    Readable x (Binds s.scopes) pending e value →
    ∃ v code s', read x (.placing reads) fuel pending e s = .ok (v, code, s') ∧
      (value = true → v.isSome)

theorem Reads.resolve (h : Reads x reads fuel pending)
    (hb : Index.Built catalog nodes connections x) :
    ∀ (ts : List PortTemplate) (inputs : Inputs) (supply : Supply) (s : State), s.scopes ≠ [] →
      (∀ t ∈ ts, t.kind = .data → ∀ e, source? x n t = some e →
        Readable x (Binds s.scopes) pending e (valued e)) →
      (∀ t ∈ ts, t.kind = .data → source? x n t = none → ∃ v, literal n t = .ok v) →
      supply.Le (.ofInputs inputs) →
      ∃ inputs' code s',
        resolve x n (read x (.placing reads) fuel pending) ts inputs s = .ok (inputs', code, s') ∧
          (Supply.gather x n valued ts supply).Le (.ofInputs inputs')
  | [], inputs, supply, s, _, _, _, hle => ⟨inputs, .done, s, rfl, hle⟩
  | t :: ts, inputs, supply, s, hne, hsrc, hlit, hle => by
    have hsrc' := fun t ht => hsrc t (.tail _ ht)
    have hlit' := fun t ht => hlit t (.tail _ ht)
    rw [Evaluation.resolve, Supply.gather]
    by_cases hk : t.kind = .data
    · rw [if_neg (by simpa using hk), if_neg (by simpa using hk)]
      cases he : source? x n t with
      | none =>
        obtain ⟨v, hv⟩ := hlit t (.head _) hk he
        obtain ⟨inputs', code, s', hr, hle'⟩ := h.resolve hb ts
          (Assoc.set t.name (some v) inputs) (Assoc.set t.name true supply) s hne hsrc' hlit' (by
            rw [Supply.ofInputs_set]
            exact hle.set t.name fun _ => rfl)
        exact ⟨inputs', code, s', bind_eq_ok.mpr ⟨v, hv, hr⟩, hle'⟩
      | some e =>
        obtain ⟨sock, hsock, -⟩ := hb.source_socket he
        obtain ⟨m, hm, -, -⟩ := Index.mem_of_socket? hsock
        obtain ⟨v, code, s₁, hr, hv⟩ := h e m _ s hm hne (hsrc t (.head _) hk e he)
        have hgrow := ((growing x (.placing reads)).read _ hr).1
        obtain ⟨inputs', more, s', hr', hle'⟩ := h.resolve hb ts
          (Assoc.set t.name v inputs) (Assoc.set t.name (valued e) supply) s₁ (hgrow.ne_nil hne)
          (fun t ht hk e he => (hsrc' t ht hk e he).mono fun _ => hgrow.binds) hlit' (by
            rw [Supply.ofInputs_set]
            exact hle.set t.name hv)
        exact ⟨inputs', code ++ more, s',
          bind_eq_ok.mpr ⟨_, hr, bind_eq_ok.mpr ⟨_, hr', rfl⟩⟩, hle'⟩
    · rw [if_pos hk, if_pos hk]
      exact h.resolve hb ts inputs supply s hne hsrc' hlit' hle

/-- A node whose sources can be read can be evaluated. -/
theorem Reads.evaluate {e : Endpoint} {value : Bool} (h : Reads x reads fuel (e.node :: pending))
    (hb : Index.Built catalog nodes connections x) (hn : Evaluable x e n valued value)
    (hne : s.scopes ≠ [])
    (hs : ∀ e', Feeds x n e' → Readable x (Binds s.scopes) (e.node :: pending) e' (valued e')) :
    ∃ r inputs code s₁ em s₂ v, Recipe.ofType? n.node.nodeType = some r ∧
      Evaluation.resolve x n (read x (.placing reads) fuel (e.node :: pending))
        n.definition.inputs [] s = .ok (inputs, code, s₁) ∧
      emit (r.outline x n) inputs s₁ = .ok (em, s₂) ∧
      em.outputs.lookup (x.portName e) = some v ∧ s₂.scopes ≠ [] ∧
      (value = true → isInlined x n = true ∨ n.Holds (em.outputs.map Prod.fst) e) := by
  obtain ⟨r, hr, hsup, hname, hvalue⟩ := hn.outline
  obtain ⟨inputs, code, s₁, hres, hle⟩ := h.resolve hb n.definition.inputs [] [] s hne
    (fun t ht hk e' he' => hs e' ⟨t, ht, hk, he'⟩) hn.literals (Supply.le_refl _)
  obtain ⟨em, s₂, hem⟩ := (hsup.mono hle).emit s₁
  obtain ⟨-, -, hout, -⟩ := emit_ok hem
  rw [← outputs_fst hout] at hname hvalue
  obtain ⟨⟨name, v⟩, hm, hname⟩ := List.mem_map.mp hname
  obtain ⟨v', hv'⟩ := Option.isSome_iff_exists.mp (Assoc.lookup_isSome_of_mem hm)
  refine ⟨r, inputs, code, s₁, em, s₂, v', hr, hres, hem, hname ▸ hv', ?_, hvalue⟩
  rw [emit_scopes hem]
  exact ((growing x (.placing reads)).resolved ⟨fuel, hres⟩).1.ne_nil hne

theorem read_of_binds {e : Endpoint} (hn : x.node? e.node = some n) (h : Binds s.scopes e)
    (value : Bool) :
    ∃ v code s', read x (.placing reads) fuel pending e s = .ok (v, code, s') ∧
      (value = true → v.isSome) := by
  obtain ⟨v, ss, hl⟩ := lookup?_of_binds h
  refine ⟨some v, .done, { s with scopes := ss }, ?_, fun _ => rfl⟩
  rw [read]
  simp only [hn, note, hl]

/-- **Reading in the placing pass** succeeds wherever the value can be read. -/
theorem reads_of_fuel (hb : Index.Built catalog nodes connections x)
    (reads : List (String × Path)) : ∀ (fuel : Nat) (pending : List String),
    x.remaining pending ≤ fuel → Reads x reads fuel pending := by
  intro fuel
  induction fuel with
  | zero =>
    intro pending hfuel e n value s hn hne hread
    cases hread with
    | bound h => exact read_of_binds hn h value
    | data valued hp hev hs =>
      have hmem : e.node ∈ x.order := List.mem_map.mpr ⟨_, Index.mem_placed hn, rfl⟩
      have := Index.remaining_cons_lt hmem hp
      omega
  | succ fuel ih =>
    intro pending hfuel e n value s hn hne hread
    by_cases hbound : Binds s.scopes e
    · exact read_of_binds hn hbound value
    cases hread with
    | bound h => exact absurd h hbound
    | @data _ _ n' _ valued hp hev hs =>
      obtain rfl := Option.some.inj (hn.symm.trans hev.node)
      have hmem : e.node ∈ x.order := List.mem_map.mpr ⟨_, Index.mem_placed hn, rfl⟩
      have hless := Index.remaining_cons_lt hmem hp
      have hreads : Reads x reads fuel (e.node :: pending) := ih _ (by omega)
      have hnone : lookup? e s.scopes = none := by
        cases hl : lookup? e s.scopes with
        | none => rfl
        | some r => exact absurd (binds_of_lookup? hl) hbound
      rw [read]
      simp only [hn, note, hnone, hev.data, Bool.false_eq_true, if_false, hp]
      by_cases hi : isInlined x n = true
      · obtain ⟨r, inputs, code, s₁, em, s₂, v, hr, hres, hem, hv, -, -⟩ :=
          hreads.evaluate hb hev hne hs
        refine ⟨some v, code, s₂, ?_, fun _ => rfl⟩
        simp only [hr, hi, if_true]
        refine bind_eq_ok.mpr ⟨(em.outputs, v, code, s₂), ?_, rfl⟩
        exact bind_eq_ok.mpr ⟨_, hres, bind_eq_ok.mpr ⟨_, hem, by simp only [hv]; rfl⟩⟩
      · have hdrop := lower_ne_nil hne (placement x (.placing reads) s.scopes e.node)
        obtain ⟨r, inputs, code, s₁, em, s₂, v, hr, hres, hem, hv, hne₂, hvalue⟩ :=
          hreads.evaluate hb hev hdrop fun e' hf => (hs e' hf).placed hn hf reads
        let made := declare n em.outputs s₂
        let placed := s.raise (top s.scopes - placement x (.placing reads) s.scopes e.node)
          (code ++ made.1) made.2
        refine ⟨(placed.2.fetch e).1, placed.1, (placed.2.fetch e).2, ?_, fun h => ?_⟩
        · simp only [hr, hi]
          refine bind_eq_ok.mpr ⟨placed, atLevel_eq ?_, ?_⟩
          · refine bind_eq_ok.mpr ⟨(em.outputs, v, code, s₂), ?_, rfl⟩
            exact bind_eq_ok.mpr ⟨_, hres, bind_eq_ok.mpr ⟨_, hem, by simp only [hv]; rfl⟩⟩
          · simp only [State.fetch]
            cases lookup? e placed.2.scopes <;> rfl
        · exact State.fetch_of_binds (State.raise_binds
            (binds_declare_of_holds hne₂ ((hvalue h).resolve_left hi)))

/-- The inputs of a node whose sources are legible are resolved in the placing pass. -/
theorem inputs_of_legible (hb : Index.Built catalog nodes connections x)
    (reads : List (String × Path)) (hne : s.scopes ≠ [])
    (hs : ∀ e, Feeds x n e → Legible x (Binds s.scopes) e (valued e))
    (hlit : ∀ t ∈ n.definition.inputs, t.kind = .data → source? x n t = none →
      ∃ v, literal n t = .ok v) :
    ∃ inputs code s', Evaluation.inputs x (.placing reads) n s = .ok (inputs, code, s') ∧
      (Supply.gather x n valued n.definition.inputs []).Le (.ofInputs inputs) :=
  (reads_of_fuel hb reads x.placed.length [] (by rw [Index.remaining_nil])).resolve hb
    n.definition.inputs [] [] s hne
    (fun t ht hk e he => (hs e ⟨t, ht, hk, he⟩).readable (by simp)) hlit (Supply.le_refl _)

end Evaluation

end VisualScript
