import VisualScript.Proofs.Layout
import Mathlib.Algebra.Order.BigOperators.Group.List
import Mathlib.Algebra.Order.Group.Nat

/-!
# Proofs — Unrolling

The layout of a flow as a relation.  `Unrolls` and `Lays` say what `Flow.unroll` and `Flow.parts` do,
step by step and without fuel: a work list and the progress before it are related to a chain and the
progress behind it.

* `Flow.unrolls_of_load`: the fuel never runs out.  What is left to do is bounded by the work list
  and the targets of the nodes that have not been seen, and every step makes it less.
* `Unrolls.visited`: a chain takes up nodes that were not seen before, each once.
* `Unrolls.closed`: a chain without a halt takes up its whole work list, and with a node everything
  the node goes on with.
-/

namespace VisualScript

-- Sums start from the core library's zero, whatever algebra is in scope around this module.
attribute [local instance (high)] Zero.ofOfNat0

/-- An item with the chain of its output, in front of other parts. -/
def Item.part : Item → Chain → Parts → Parts
  | .line t,                       _,    rest => .line t rest
  | .follow _,                     body, rest => .follow body rest
  | .block port bindings tail,     body, rest => .block port bindings tail body rest
  | .thread port name isConnected, body, rest => .thread port name isConnected body rest

theorem Item.part_nodes {item : Item} {body : Chain} {rest : Parts}
    (h : item.port? = none → body = .done) :
    (item.part body rest).nodes = body.nodes ++ rest.nodes := by
  cases item with
  | line t =>
    obtain rfl := h rfl
    rfl
  | _ => rfl

namespace Flow

variable {x : Index} {n : PlacedNode}

/-- Items, each with the nodes it leads to. -/
abbrev Jobs := List (Item × List String)

def jobs (x : Index) (n : PlacedNode) (items : List Item) : Jobs :=
  items.map fun item => (item, itemTargets x n item)

/-- The exec outputs of an entry, each with the nodes it leads to. -/
def entryJobs (x : Index) (n : PlacedNode) : Jobs :=
  (n.outputs.filter (·.port.kind == .exec)).map fun s =>
    (.follow s.name, x.targets ⟨n.node.id, s.port.id⟩)

/-- The targets of the trailing output of a list of items. -/
def tailTargets (x : Index) (n : PlacedNode) (items : List Item) : List String :=
  ((Outline.splitTail items).2.map (targets x n)).getD []

/-- The nodes that the layout goes on with from a node. -/
def next (x : Index) (id : String) : List String :=
  match x.node? id with
  | none   => []
  | some n =>
      if n.definition.isEntry then x.successors id
      else match Recipe.ofType? n.node.nodeType with
        | none   => []
        | some r =>
            let items := (r.outline x n).items
            (Outline.splitTail items).1.flatMap (itemTargets x n) ++ tailTargets x n items

/-- Lays out jobs one after the other, where `chain` lays out a list of targets. -/
def lay (chain : List String → Progress → Chain × Progress) : Jobs → Progress → Parts × Progress
  | [],                 p => (.done, p)
  | (item, ts) :: jobs, p =>
      let body := chain ts p
      let rest := lay chain jobs body.2
      (item.part body.1 rest.1, rest.2)

theorem parts_eq_lay {f : List String → Progress → Chain × Progress}
    (hnil : ∀ p, f [] p = (.done, p)) :
    ∀ (items : List Item) (p : Progress), parts x n f items p = lay f (jobs x n items) p
  | [], _ => rfl
  | .line t :: items, p => by
    simp only [parts, parts_eq_lay hnil items, jobs, List.map_cons, lay, itemTargets, hnil]
    rfl
  | .follow _ :: items, p | .block _ _ _ :: items, p | .thread _ _ _ :: items, p => by
    simp only [parts, parts_eq_lay hnil items, jobs, List.map_cons, lay, itemTargets]
    rfl

theorem nested_nil (x : Index) (fuel : Nat) (p : Progress) : nested x fuel [] p = (.done, p) := by
  simp [nested, unroll_nil, Progress.finishSince]

theorem followAll_eq_lay (x : Index) (n : PlacedNode) : ∀ (outputs : List Socket) (p : Progress),
    followAll x n outputs p = lay (chain x)
      (outputs.map fun s => (.follow s.name, x.targets ⟨n.node.id, s.port.id⟩)) p
  | [],           _ => rfl
  | s :: outputs, p => by
    rw [followAll, followAll_eq_lay x n outputs]
    rfl

/-- An entry is laid out from its jobs. -/
theorem entry_eq_lay (x : Index) (n : PlacedNode) (p : Progress) :
    entry x n p =
      let own := lay (chain x) (entryJobs x n) (p.start n.node.id)
      (own.1, p.finishSince own.2) := by
  rw [entry_eq_followAll, followAll_eq_lay]
  rfl

theorem next_of_enter {p : Progress} {id : String} {r : Recipe} (h : enter x p id = .ok (n, r)) :
    next x id = (jobs x n (Outline.splitTail (r.outline x n).items).1).flatMap Prod.snd ++
      tailTargets x n (r.outline x n).items := by
  obtain ⟨hn, -, hi, hr⟩ := enter_ok h
  simp only [next, hn, hi, Bool.false_eq_true, if_false, hr, jobs, List.flatMap_map]

theorem next_of_entry (hn : x.node? n.node.id = some n) (he : n.definition.isEntry = true) :
    next x n.node.id = (entryJobs x n).flatMap Prod.snd := by
  simp only [next, hn, he, if_true, Index.successors, Index.outputs, Option.map_some,
    Option.getD_some, entryJobs, List.flatMap_map]

theorem exists_of_mem_jobs {items : List Item} {job : Item × List String} {a : String}
    (hj : job ∈ jobs x n items) (ha : a ∈ job.2) :
    ∃ port ∈ items.filterMap Item.port?, job.2 = targets x n port := by
  obtain ⟨item, hm, rfl⟩ := List.mem_map.mp hj
  simp only [itemTargets_eq] at ha ⊢
  cases hp : item.port? with
  | none => simp [hp] at ha
  | some port => exact ⟨port, List.mem_filterMap.mpr ⟨item, hm, hp⟩, rfl⟩

theorem exists_of_mem_tailTargets {items : List Item} {a : String}
    (ha : a ∈ tailTargets x n items) :
    ∃ port ∈ items.filterMap Item.port?, tailTargets x n items = targets x n port := by
  unfold tailTargets at ha ⊢
  cases hp : (Outline.splitTail items).2 with
  | none => simp [hp] at ha
  | some port =>
    exact ⟨port, List.mem_filterMap.mpr ⟨_, follow_mem_of_splitTail hp, rfl⟩, rfl⟩

/-- An item without an output leads nowhere. -/
def Led (jobs : Jobs) : Prop := ∀ job ∈ jobs, job.1.port? = none → job.2 = []

theorem led_jobs (x : Index) (n : PlacedNode) (items : List Item) : Led (jobs x n items) := by
  intro job hj hp
  obtain ⟨item, -, rfl⟩ := List.mem_map.mp hj
  rw [itemTargets_eq, hp]
  rfl

theorem led_entryJobs (x : Index) (n : PlacedNode) : Led (entryJobs x n) := by
  intro job hj hp
  obtain ⟨s, -, rfl⟩ := List.mem_map.mp hj
  cases hp

end Flow

/-! ### Without fuel -/

mutual

/-- A work list is unrolled into a chain. -/
inductive Unrolls (x : Index) : List String → Progress → Chain → Progress → Prop where
  | nil {p : Progress} : Unrolls x [] p .done p
  | skip {id : String} {work : List String} {p q : Progress} {c : Chain}
      (hf : id ∈ p.finished) (h : Unrolls x work p c q) : Unrolls x (id :: work) p c q
  | halt {id : String} {work : List String} {p : Progress} {f : Fault}
      (hf : id ∉ p.finished) (he : Flow.enter x p id = .error f) :
      Unrolls x (id :: work) p (.halt f) p
  | step {id : String} {work : List String} {p p₁ q : Progress} {n : PlacedNode} {r : Recipe}
      {own : Parts} {rest : Chain} (hf : id ∉ p.finished) (he : Flow.enter x p id = .ok (n, r))
      (parts : Lays x (Flow.jobs x n (Outline.splitTail (r.outline x n).items).1) (p.start id) own p₁)
      (chain : Unrolls x (Flow.tailTargets x n (r.outline x n).items ++ work) p₁ rest q) :
      Unrolls x (id :: work) p (.step id own rest) q

/-- Jobs are laid out one after the other. -/
inductive Lays (x : Index) : Flow.Jobs → Progress → Parts → Progress → Prop where
  | nil {p : Progress} : Lays x [] p .done p
  | job {item : Item} {ts : List String} {jobs : Flow.Jobs} {p now q : Progress} {body : Chain}
      {rest : Parts} (hl : item.port? = none → ts = []) (hb : Unrolls x ts p body now)
      (h : Lays x jobs (p.finishSince now) rest q) :
      Lays x ((item, ts) :: jobs) p (item.part body rest) q

end

variable {x : Index}

theorem Unrolls.eq_done {p q : Progress} {c : Chain} (h : Unrolls x [] p c q) : c = .done := by
  cases h
  rfl

mutual

/-- A chain takes up nodes that were not seen before, each once. -/
theorem Unrolls.visited : ∀ {work : List String} {p q : Progress} {c : Chain},
    Unrolls x work p c q → Visited c.nodes p q
  | _, p, _, _, .nil => .nil p
  | _, _, _, _, .skip _ h => h.visited
  | _, p, _, _, .halt _ _ => .nil p
  | id :: _, p, _, _, .step hf he hown hrest => by
    obtain ⟨-, ha, -⟩ := Flow.enter_ok he
    have hfresh : id ∉ p.seen := by simp [Progress.seen, ha, hf]
    exact (Visited.start hfresh).trans (hown.visited.trans hrest.visited)

theorem Lays.visited : ∀ {jobs : Flow.Jobs} {p q : Progress} {own : Parts},
    Lays x jobs p own q → Visited own.nodes p q
  | _, p, _, _, .nil => .nil p
  | _, _, _, _, .job hl hb h => by
    rw [Item.part_nodes fun hp => Unrolls.eq_done (hl hp ▸ hb)]
    exact hb.visited.finish.trans h.visited

end

/-! ### The fuel is enough -/

namespace Flow

/-- How many targets the nodes have that are not among those already seen. -/
def pending (x : Index) (seen : List String) : Nat :=
  (x.placed.map fun q => if q.1 ∈ seen then 0 else (nodeTargets x q.2).length).sum

theorem pending_le {seen seen' : List String} (h : ∀ a ∈ seen, a ∈ seen') :
    pending x seen' ≤ pending x seen := by
  refine List.sum_le_sum fun q _ => ?_
  by_cases hq : q.1 ∈ seen
  · rw [if_pos hq, if_pos (h _ hq)]
  · rw [if_neg hq]
    split <;> simp

/-- Where one summand falls by `k` and no other rises, the sum falls by `k`. -/
theorem sum_map_add_le {α : Type} {f g : α → Nat} {a : α} {k : Nat} :
    ∀ {l : List α}, a ∈ l → (∀ b ∈ l, g b ≤ f b) → g a + k ≤ f a →
      (l.map g).sum + k ≤ (l.map f).sum
  | b :: l, hm, hle, hk => by
    simp only [List.map_cons, List.sum_cons]
    rcases List.mem_cons.mp hm with rfl | hm
    · have := List.sum_le_sum (fun b hb => hle b (.tail _ hb))
      omega
    · have := sum_map_add_le hm (fun b hb => hle b (.tail _ hb)) hk
      have := hle b (.head _)
      omega

/-- Taking up a node makes its targets work in place of what was pending. -/
theorem pending_cons {seen : List String} {id : String} {n : PlacedNode}
    (hn : x.node? id = some n) (hs : id ∉ seen) :
    pending x (id :: seen) + (nodeTargets x n).length ≤ pending x seen := by
  refine sum_map_add_le (Index.mem_placed hn) (fun q _ => ?_) ?_
  · by_cases hq : q.1 ∈ seen
    · simp [hq]
    · rw [if_neg hq]
      split <;> simp
  · simp [hs]

theorem length_itemTargets_le {n : PlacedNode} {items : List Item} {item : Item}
    (h : item ∈ items) :
    (itemTargets x n item).length ≤ (items.flatMap (itemTargets x n)).length := by
  rw [List.length_flatMap]
  exact List.le_sum_of_mem (List.mem_map_of_mem h)

theorem length_tailTargets_le (x : Index) (n : PlacedNode) (items : List Item) :
    (tailTargets x n items).length ≤ (items.flatMap (itemTargets x n)).length := by
  unfold tailTargets
  cases ht : (Outline.splitTail items).2 with
  | none => simp
  | some port => exact length_itemTargets_le (follow_mem_of_splitTail ht)

/-- Jobs are laid out where there is enough fuel for each of them. -/
theorem lays_of_load {f : List String → Progress → Chain × Progress} {fuel : Nat}
    (hf : ∀ ts p, ts.length + pending x p.seen ≤ fuel →
      ∃ now, Unrolls x ts p (f ts p).1 now ∧ (f ts p).2 = p.finishSince now) :
    ∀ (jobs : Jobs) (p : Progress), Led jobs →
      (∀ job ∈ jobs, job.2.length + pending x p.seen ≤ fuel) →
      Lays x jobs p (lay f jobs p).1 (lay f jobs p).2
  | [], _, _, _ => .nil
  | (item, ts) :: jobs, p, hl, hload => by
    obtain ⟨now, hb, hnow⟩ := hf ts p (hload _ (.head _))
    refine .job (hl _ (.head _)) hb ?_
    rw [lay, hnow]
    refine lays_of_load hf jobs _ (fun job hj => hl job (.tail _ hj)) fun job hj => ?_
    have := pending_le (x := x) fun a ha => (hb.visited.finish.seen a).mpr (.inr ha)
    have := hload job (.tail _ hj)
    omega

/-- **The fuel is enough**: a work list is unrolled to its end. -/
theorem unrolls_of_load : ∀ (fuel : Nat) (work : List String) (p : Progress),
    work.length + pending x p.seen ≤ fuel →
      Unrolls x work p (unroll x fuel work p).1 (unroll x fuel work p).2
  | 0, work, p, h => by
    obtain rfl : work = [] := List.length_eq_zero_iff.mp (by omega)
    exact .nil
  | fuel + 1, [], p, _ => .nil
  | fuel + 1, id :: work, p, h => by
    rw [List.length_cons] at h
    by_cases hf : id ∈ p.finished
    · rw [unroll, if_pos hf]
      exact .skip hf (unrolls_of_load fuel work p (by omega))
    cases he : enter x p id with
    | error f =>
      rw [unroll, if_neg hf, he]
      exact .halt hf he
    | ok found =>
    obtain ⟨n, r⟩ := found
    obtain ⟨hn, ha, -, hr⟩ := enter_ok he
    rw [unroll_enter hf he]
    dsimp only
    rw [parts_eq_lay (nested_nil x fuel)]
    have hfresh : id ∉ p.seen := by simp [Progress.seen, ha, hf]
    -- the targets of the node were pending and are work now
    have hpending := pending_cons hn hfresh
    rw [nodeTargets, hr] at hpending
    have hown := lays_of_load (f := nested x fuel) (fun ts q hq => ⟨_, unrolls_of_load fuel ts q hq, rfl⟩)
      (jobs x n (Outline.splitTail (r.outline x n).items).1) (p.start id) (led_jobs x n _) (by
        intro job hj
        obtain ⟨item, hi, rfl⟩ := List.mem_map.mp hj
        have := length_itemTargets_le (x := x) (n := n) (mem_of_mem_splitTail hi)
        show _ + pending x (id :: p.seen) ≤ fuel
        dsimp only at hpending ⊢
        omega)
    refine .step hf he hown (unrolls_of_load fuel _ _ ?_)
    have := length_tailTargets_le x n (r.outline x n).items
    have := pending_le (x := x) fun a ha => (hown.visited.seen a).mpr (.inr ha)
    have : pending x (p.start id).seen = pending x (id :: p.seen) := rfl
    dsimp only at hpending
    rw [List.length_append]
    omega

theorem unrolls_chain (ts : List String) (p : Progress) :
    ∃ now, Unrolls x ts p (chain x ts p).1 now ∧ (chain x ts p).2 = p.finishSince now := by
  refine ⟨_, unrolls_of_load (budget x ts) ts p ?_, rfl⟩
  have hseen : pending x p.seen ≤ pending x [] := pending_le (by simp)
  have hbudget : budget x ts = ts.length + pending x [] + 1 := by simp [budget, pending]
  omega

/-- How the flow of an entry is laid out. -/
theorem lays_entry (n : PlacedNode) (p : Progress) :
    ∃ now, Lays x (entryJobs x n) (p.start n.node.id) (entry x n p).1 now ∧
      (entry x n p).2 = p.finishSince now := by
  have hload : ∀ job ∈ entryJobs x n, job.2.length + pending x (p.start n.node.id).seen ≤
      ((entryJobs x n).map (·.2.length)).sum + pending x (p.start n.node.id).seen := by
    intro job hj
    have := List.le_sum_of_mem (List.mem_map_of_mem (f := (·.2.length)) hj)
    omega
  rw [entry_eq_lay]
  exact ⟨_, lays_of_load (fun ts q _ => unrolls_chain ts q) _ _ (led_entryJobs x n) hload, rfl⟩

end Flow

/-! ### Nothing is left out -/

mutual

/-- Control reaches no node that it must not reach. -/
def Chain.Whole : Chain → Prop
  | .done            => True
  | .halt _          => False
  | .step _ own rest => own.Whole ∧ rest.Whole

def Parts.Whole : Parts → Prop
  | .done                   => True
  | .line _ rest            => rest.Whole
  | .follow body rest       => body.Whole ∧ rest.Whole
  | .block _ _ _ body rest  => body.Whole ∧ rest.Whole
  | .thread _ _ _ body rest => body.Whole ∧ rest.Whole

end

theorem Item.whole_of_part {item : Item} {body : Chain} {rest : Parts}
    (hl : item.port? = none → body = .done) (h : (item.part body rest).Whole) :
    body.Whole ∧ rest.Whole := by
  cases item with
  | line t =>
    obtain rfl := hl rfl
    exact ⟨trivial, h⟩
  | _ => exact h

mutual

/-- A chain without a halt takes up its whole work list, and with a node everything the node goes on
with. -/
theorem Unrolls.closed : ∀ {work : List String} {p q : Progress} {c : Chain},
    Unrolls x work p c q → c.Whole →
      (∀ a ∈ work, a ∈ q.seen) ∧ ∀ id ∈ c.nodes, ∀ a ∈ Flow.next x id, a ∈ q.seen
  | _, _, _, _, .nil, _ => by simp [Chain.nodes]
  | _, _, _, _, .skip hf h, hw => by
    obtain ⟨hwork, hnext⟩ := h.closed hw
    refine ⟨fun a ha => ?_, hnext⟩
    rcases List.mem_cons.mp ha with rfl | ha
    · exact (h.visited.seen a).mpr (.inr (List.mem_append_right _ hf))
    · exact hwork a ha
  | id :: _, _, q, _, .step hf he hown hrest, hw => by
    obtain ⟨hjobs, hown'⟩ := hown.closed hw.1
    obtain ⟨hwork, hrest'⟩ := hrest.closed hw.2
    have hmono := fun a ha => (hrest.visited.seen a).mpr (.inr ha)
    have hid : id ∈ q.seen :=
      hmono id ((hown.visited.seen id).mpr (.inr (List.mem_append_left _ (.head _))))
    refine ⟨fun a ha => ?_, fun b hb a ha => ?_⟩
    · rcases List.mem_cons.mp ha with rfl | ha
      · exact hid
      · exact hwork a (List.mem_append_right _ ha)
    · simp only [Chain.nodes, List.mem_cons, List.mem_append] at hb
      rcases hb with rfl | hb | hb
      · rw [Flow.next_of_enter he] at ha
        rcases List.mem_append.mp ha with ha | ha
        · obtain ⟨job, hj, ha⟩ := List.mem_flatMap.mp ha
          exact hmono a (hjobs job hj a ha)
        · exact hwork a (List.mem_append_left _ ha)
      · exact hmono a (hown' b hb a ha)
      · exact hrest' b hb a ha

theorem Lays.closed : ∀ {jobs : Flow.Jobs} {p q : Progress} {own : Parts},
    Lays x jobs p own q → own.Whole →
      (∀ job ∈ jobs, ∀ a ∈ job.2, a ∈ q.seen) ∧
        ∀ id ∈ own.nodes, ∀ a ∈ Flow.next x id, a ∈ q.seen
  | _, _, _, _, .nil, _ => by simp [Parts.nodes]
  | _, _, q, _, @Lays.job _ _ _ _ _ now _ _ _ hl hb h, hw => by
    have hdone := fun hp => Unrolls.eq_done (hl hp ▸ hb)
    obtain ⟨hwb, hwr⟩ := Item.whole_of_part hdone hw
    obtain ⟨hts, hbody⟩ := hb.closed hwb
    obtain ⟨hjobs, hrest⟩ := h.closed hwr
    have hmono : ∀ a ∈ now.seen, a ∈ q.seen := fun a ha =>
      (h.visited.seen a).mpr (.inr ((hb.visited.finish.seen a).mpr ((hb.visited.seen a).mp ha)))
    refine ⟨fun job hj a ha => ?_, fun b hm a ha => ?_⟩
    · rcases List.mem_cons.mp hj with rfl | hj
      · exact hmono a (hts a ha)
      · exact hjobs job hj a ha
    · rw [Item.part_nodes hdone] at hm
      rcases List.mem_append.mp hm with hm | hm
      · exact hmono a (hbody b hm a ha)
      · exact hrest b hm a ha

end

end VisualScript
