import VisualScript.Proofs.Unrolling
import Mathlib.Logic.Relation

/-!
# Proofs — Recursion

The flow of an entry as plain recursion: for each target in turn the node, the chains of its items,
the chain of its trailing output, and then the next target.  `Chain.Direct` and `Parts.Direct` say
so without a work list, without fuel and without remembering any node.

Where no node is led to twice (`Flow.Forest`), what lies ahead of a layout has never been seen
(`Clear`), so the layout passes over nothing and is the recursion (`Unrolls.direct`).
-/

namespace VisualScript

/-- One chain behind another.  Nothing comes behind a halt. -/
def Chain.append : Chain → Chain → Chain
  | .done,             d => d
  | .halt f,           _ => .halt f
  | .step id own rest, d => .step id own (rest.append d)

instance : Append Chain := ⟨Chain.append⟩

@[simp] theorem Chain.done_append (d : Chain) : Chain.done ++ d = d := rfl

@[simp] theorem Chain.step_append (id : String) (own : Parts) (rest d : Chain) :
    Chain.step id own rest ++ d = .step id own (rest ++ d) := rfl

theorem Chain.append_assoc : ∀ a b c : Chain, a ++ b ++ c = a ++ (b ++ c)
  | .done, _, _ => rfl
  | .halt _, _, _ => rfl
  | .step id own rest, b, c => by simp [rest.append_assoc b c]

theorem Chain.mem_nodes_append {id : String} {d : Chain} :
    ∀ {c : Chain}, id ∈ (c ++ d).nodes → id ∈ c.nodes ∨ id ∈ d.nodes
  | .done, h => .inr h
  | .halt _, h => .inl h
  | .step a own rest, h => by
    simp only [step_append, nodes, List.mem_cons, List.mem_append] at h ⊢
    rcases h with h | h | h
    · exact .inl (.inl h)
    · exact .inl (.inr (.inl h))
    · rcases mem_nodes_append h with h | h
      · exact .inl (.inr (.inr h))
      · exact .inr h

/-! ### Plain recursion -/

mutual

/-- The chain of a list of targets. -/
inductive Chain.Direct (x : Index) : List String → Chain → Prop where
  | nil : Chain.Direct x [] .done
  | cons {id : String} {ids : List String} {n : PlacedNode} {r : Recipe} {own : Parts}
      {tail rest : Chain} (node : x.node? id = some n) (inner : n.definition.isEntry = false)
      (recipe : Recipe.ofType? n.node.nodeType = some r)
      (parts : Parts.Direct x (Flow.jobs x n (Outline.splitTail (r.outline x n).items).1) own)
      (trailing : Chain.Direct x (Flow.tailTargets x n (r.outline x n).items) tail)
      (others : Chain.Direct x ids rest) : Chain.Direct x (id :: ids) (.step id own (tail ++ rest))

/-- The parts of a list of jobs, each with the chain of its targets. -/
inductive Parts.Direct (x : Index) : Flow.Jobs → Parts → Prop where
  | nil : Parts.Direct x [] .done
  | job {item : Item} {ts : List String} {jobs : Flow.Jobs} {body : Chain} {rest : Parts}
      (chain : Chain.Direct x ts body) (others : Parts.Direct x jobs rest) :
      Parts.Direct x ((item, ts) :: jobs) (item.part body rest)

end

variable {x : Index}

mutual

/-- The recursion has one result. -/
theorem Chain.Direct.unique : ∀ {ids : List String} {c c' : Chain},
    c.Direct x ids → c'.Direct x ids → c = c'
  | _, _, _, .nil, .nil => rfl
  | _, _, _, .cons hn _ hr hown htail hrest, .cons hn' _ hr' hown' htail' hrest' => by
    cases hn.symm.trans hn'
    cases hr.symm.trans hr'
    rw [hown.unique hown', htail.unique htail', hrest.unique hrest']

theorem Parts.Direct.unique : ∀ {jobs : Flow.Jobs} {p p' : Parts},
    p.Direct x jobs → p'.Direct x jobs → p = p'
  | _, _, _, .nil, .nil => rfl
  | _, _, _, .job hb h, .job hb' h' => by rw [hb.unique hb', h.unique h']

end

/-- The chain of two lists of targets is that of the first in front of that of the second. -/
theorem Chain.Direct.split : ∀ {front back : List String} {c : Chain}, c.Direct x (front ++ back) →
    ∃ c₁ c₂, c₁.Direct x front ∧ c₂.Direct x back ∧ c = c₁ ++ c₂
  | [], _, c, h => ⟨.done, c, .nil, h, rfl⟩
  | _ :: front, back, _, .cons hn hi hr hown htail hrest => by
    obtain ⟨c₁, c₂, h₁, h₂, rfl⟩ := hrest.split
    exact ⟨_, c₂, .cons hn hi hr hown htail h₁, h₂, by simp [Chain.append_assoc]⟩

/-- Control can go on from the first node to the second in the layout. -/
def Flow.Leads (x : Index) (a b : String) : Prop := b ∈ Flow.next x a

theorem Flow.next_of_inner {id : String} {n : PlacedNode} {r : Recipe} (hn : x.node? id = some n)
    (hi : n.definition.isEntry = false) (hr : Recipe.ofType? n.node.nodeType = some r) :
    Flow.next x id = (Flow.jobs x n (Outline.splitTail (r.outline x n).items).1).flatMap Prod.snd ++
      Flow.tailTargets x n (r.outline x n).items := by
  simp only [next, hn, hi, Bool.false_eq_true, if_false, hr, jobs, List.flatMap_map]

mutual

/-- The recursion comes to nodes only that its targets lead to. -/
theorem Chain.Direct.reached {id : String} : ∀ {ids : List String} {c : Chain},
    c.Direct x ids → id ∈ c.nodes → ∃ a ∈ ids, Relation.ReflTransGen (Flow.Leads x) a id
  | [], _, .nil, h => by cases h
  | a :: _, _, .cons hn hi hr hown htail hrest, h => by
    have hleads : ∀ b, Flow.Leads x a b ↔ b ∈ _ ++ _ := fun b => by
      rw [Flow.Leads, Flow.next_of_inner hn hi hr]
    simp only [Chain.nodes, List.mem_cons, List.mem_append] at h
    rcases h with rfl | h | h
    · exact ⟨id, .head _, .refl⟩
    · obtain ⟨b, hb, hreach⟩ := hown.reached h
      exact ⟨a, .head _, .head ((hleads b).mpr (List.mem_append_left _ hb)) hreach⟩
    · rcases Chain.mem_nodes_append h with h | h
      · obtain ⟨b, hb, hreach⟩ := htail.reached h
        exact ⟨a, .head _, .head ((hleads b).mpr (List.mem_append_right _ hb)) hreach⟩
      · obtain ⟨b, hb, hreach⟩ := hrest.reached h
        exact ⟨b, .tail _ hb, hreach⟩

theorem Parts.Direct.reached {id : String} : ∀ {jobs : Flow.Jobs} {p : Parts},
    p.Direct x jobs → id ∈ p.nodes →
      ∃ a ∈ jobs.flatMap Prod.snd, Relation.ReflTransGen (Flow.Leads x) a id
  | _, _, @Parts.Direct.job _ item _ _ body rest hb h, hid => by
    have hid : id ∈ body.nodes ∨ id ∈ rest.nodes := by
      cases item with
      | line t => exact .inr hid
      | _ => exact List.mem_append.mp hid
    rw [List.flatMap_cons]
    rcases hid with hid | hid
    · obtain ⟨a, ha, hreach⟩ := hb.reached hid
      exact ⟨a, List.mem_append_left _ ha, hreach⟩
    · obtain ⟨a, ha, hreach⟩ := h.reached hid
      exact ⟨a, List.mem_append_right _ ha, hreach⟩

end

/-! ### No node is led to twice -/

/-- No node is led to from two nodes, or twice from one. -/
structure Flow.Forest (x : Index) : Prop where
  nodup  : ∀ id, (Flow.next x id).Nodup
  single : ∀ {a b c}, c ∈ Flow.next x a → c ∈ Flow.next x b → a = b

/-- What lies ahead of a layout: the work is new, and nothing that is new leads to a node that has
been seen or to one of the work. -/
structure Clear (x : Index) (seen work : List String) : Prop where
  nodup : work.Nodup
  fresh : ∀ a ∈ work, a ∉ seen
  ahead : ∀ a, a ∉ seen → ∀ b ∈ Flow.next x a, b ∉ seen ∧ b ∉ work

namespace Clear

variable {seen seen' work : List String} {id : String}

theorem congr (h : Clear x seen work) (hs : ∀ a, a ∈ seen' ↔ a ∈ seen) : Clear x seen' work :=
  ⟨h.nodup, fun a ha => by rw [hs]; exact h.fresh a ha, fun a ha b hb => by
    rw [hs] at ha ⊢
    exact h.ahead a ha b hb⟩

/-- Taking up the first node puts what it leads to in front of the work. -/
theorem enter (hf : Flow.Forest x) (h : Clear x seen (id :: work)) :
    Clear x (id :: seen) (Flow.next x id ++ work) := by
  have hid := h.fresh id (.head _)
  obtain ⟨hnot, hnodup⟩ := List.nodup_cons.mp h.nodup
  have hown := h.ahead id hid
  refine ⟨?_, fun a ha hs => ?_, fun a ha b hb => ?_⟩
  · exact List.nodup_append.mpr ⟨hf.nodup id, hnodup, fun a ha b hb e =>
      (hown a ha).2 (.tail _ (e ▸ hb))⟩
  · rcases List.mem_append.mp ha with ha | ha
    · rcases List.mem_cons.mp hs with rfl | hs
      · exact (hown a ha).2 (.head _)
      · exact (hown a ha).1 hs
    · rcases List.mem_cons.mp hs with hs | hs
      · exact hnot (hs ▸ ha)
      · exact h.fresh a (.tail _ ha) hs
  · rw [List.mem_cons, not_or] at ha
    obtain ⟨hne, ha⟩ := ha
    obtain ⟨hb₁, hb₂⟩ := h.ahead a ha b hb
    rw [List.mem_cons, not_or] at hb₂
    obtain ⟨hb₂, hb₃⟩ := hb₂
    refine ⟨by simp [hb₁, hb₂], fun hm => ?_⟩
    rcases List.mem_append.mp hm with hm | hm
    · exact hne (hf.single hb hm)
    · exact hb₃ hm

end Clear

mutual

/-- **The layout is the recursion** where no node is led to twice. -/
theorem Unrolls.direct (hf : Flow.Forest x) : ∀ {work : List String} {p q : Progress} {c : Chain},
    Unrolls x work p c q → c.Whole → ∀ later, Clear x p.seen (work ++ later) →
      c.Direct x work ∧ Clear x q.seen later
  | _, _, _, _, .nil, _, _, h => ⟨.nil, h⟩
  | _, _, _, _, .skip hdone _, _, _, h =>
    absurd (List.mem_append_right _ hdone) (h.fresh _ (.head _))
  | _ :: work, _, _, _, .step _ he hown hrest, hw, later, h => by
    obtain ⟨hn, -, hi, hr⟩ := Flow.enter_ok he
    rw [List.cons_append] at h
    have h := h.enter hf
    rw [Flow.next_of_enter he, List.append_assoc, ← List.append_assoc _ work] at h
    obtain ⟨hown', h₁⟩ := hown.direct hf hw.1 _ h
    obtain ⟨hrest', h₂⟩ := hrest.direct hf hw.2 later h₁
    obtain ⟨tail, rest, htail, hothers, rfl⟩ := hrest'.split
    exact ⟨.cons hn hi hr hown' htail hothers, h₂⟩

theorem Lays.direct (hf : Flow.Forest x) : ∀ {jobs : Flow.Jobs} {p q : Progress} {own : Parts},
    Lays x jobs p own q → own.Whole → ∀ later, Clear x p.seen (jobs.flatMap Prod.snd ++ later) →
      own.Direct x jobs ∧ Clear x q.seen later
  | _, _, _, _, .nil, _, _, h => ⟨.nil, h⟩
  | _, _, _, _, .job hl hb hrest, hw, later, h => by
    rw [List.flatMap_cons, List.append_assoc] at h
    obtain ⟨hwb, hwr⟩ := Item.whole_of_part (fun hp => Unrolls.eq_done (hl hp ▸ hb)) hw
    obtain ⟨hbody, h₁⟩ := hb.direct hf hwb _ h
    have h₁ := h₁.congr fun a => (hb.visited.finish.seen a).trans (hb.visited.seen a).symm
    obtain ⟨hothers, h₂⟩ := hrest.direct hf hwr later h₁
    exact ⟨.job hbody hothers, h₂⟩

end

end VisualScript
