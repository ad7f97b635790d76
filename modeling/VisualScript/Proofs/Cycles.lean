import VisualScript.Proofs.Failing
import VisualScript.Proofs.Forest

/-!
# Proofs — Cycles

What a reported cycle is.  Three searches report one.

* The check of a graph names a node on a cycle of exec connections.
* Reading a value names a node on a cycle of data connections between nodes that no control passes
  through (`Blocked.dataCycle`).
* The layout of a flow names a node that it meets again before the chain of the node has ended.  A
  checked graph has no cycle of exec connections, so this is none: two connections lead to the node,
  or it is an entry that a connection leads back to (`Script.reported_cycle`).  Two branches of one
  chain that meet again are enough (`Script.meeting_reported`).
-/

namespace VisualScript

open Relation

variable {n : PlacedNode} {f : Fault} {r : Recipe} {inputs : Inputs} {u v : String}

variable {catalog : Catalog} {nodes : List Node} {connections : List Connection} {x : Index}

/-! ### Cycles of values -/

namespace Graph

/-- No control passes through the node. -/
def DataOnly (catalog : Catalog) (nodes : List Node) (id : String) : Prop :=
  ∃ node ∈ nodes, node.id = id ∧
    ∀ p ∈ node.ports catalog true ++ node.ports catalog false, p.kind = .data

/-- A connection between two nodes that no control passes through. -/
def DataEdge (catalog : Catalog) (nodes : List Node) (connections : List Connection)
    (a b : String) : Prop :=
  ∃ c ∈ connections, c.source.node = a ∧ c.target.node = b ∧ DataOnly catalog nodes a ∧
    DataOnly catalog nodes b

theorem dataOnly_of_hasExec (hb : Index.Built catalog nodes connections x) {id : String}
    {n : PlacedNode} (hn : x.node? id = some n) (hx : n.hasExec = false) :
    DataOnly catalog nodes id := by
  have hport : ∀ isInput, ∀ p ∈ n.node.ports catalog isInput, p.kind = .data := by
    intro isInput p hp
    obtain ⟨s, hs, -, -, hk⟩ := socket_of_port hb hn hp
    have hmem : s ∈ n.sockets := by
      cases isInput with
      | true => exact List.mem_append_left _ hs
      | false => exact List.mem_append_right _ hs
    have hexec := List.any_eq_false.mp hx s hmem
    cases hp : p.kind with
    | data => rfl
    | exec => simp [hk, hp] at hexec
  refine ⟨n.node, mem_nodes hb hn, hb.node_id hn, fun p hp => ?_⟩
  exact (List.mem_append.mp hp).elim (hport true p) (hport false p)

theorem dataEdge_of_feeds (hb : Index.Built catalog nodes connections x) {id : String}
    {n m : PlacedNode} {e : Endpoint} (hn : x.node? id = some n) (hx : n.hasExec = false)
    (hm : x.node? e.node = some m) (hx' : m.hasExec = false) (hf : Evaluation.Feeds x n e) :
    DataEdge catalog nodes connections e.node id := by
  obtain ⟨t, -, -, he⟩ := hf
  obtain ⟨port, -, he⟩ := Option.bind_eq_some_iff.mp he
  obtain ⟨c, hc, he⟩ := Option.bind_eq_some_iff.mp he
  cases he
  obtain ⟨hc, htarget⟩ := hb.mem_of_incoming? hc
  refine ⟨c, hc, rfl, ?_, dataOnly_of_hasExec hb hm hx', dataOnly_of_hasExec hb hn hx⟩
  rw [htarget]
  exact hb.node_id hn

end Graph

theorem Literal.failure_ne_fault (t : ValueType) (v : Json) : failure t v ≠ .fault f := by
  unfold failure
  repeat' split
  all_goals simp

theorem Evaluation.literal_ne_fault {t : PortTemplate} : literal n t ≠ .error (.fault f) := by
  unfold literal
  dsimp only
  split
  · simp
  · simpa using Literal.failure_ne_fault _ _

theorem Recipe.caseFailure?_ne_fault (type : ValueType) (n : PlacedNode) :
    ∀ (vs : List Json) (i : Nat), caseFailure? type n i vs ≠ some (.fault f)
  | [], _ => by simp [caseFailure?]
  | v :: vs, i => by
    rw [caseFailure?]
    repeat' split
    · exact caseFailure?_ne_fault type n vs (i + 1)
    · simpa using Literal.failure_ne_fault type v
    · simp

/-- No outline finds fault with the graph. -/
theorem Recipe.failure_ne_fault : (r.outline x n).failure ≠ some (.fault f) := by
  cases r with
  | constant type key output =>
    simp only [outline]
    split
    · simp
    · simpa using Literal.failure_ne_fault _ _
  | switch type =>
    simp only [outline]
    split
    · exact caseFailure?_ne_fault _ _ _ _
    · rename_i g hg
      have hcases : g ≠ .fault f := by
        rintro rfl
        unfold casesOf at hg
        repeat' split at hg
        all_goals cases hg
      simpa using hcases
  | _ => simp [outline]

theorem Evaluation.outputValue_ne_fault {vars : List String} {o : String × Output} :
    outputValue inputs vars o ≠ .error (.fault f) := by
  obtain ⟨name, out⟩ := o
  cases out with
  | expr t => simp [outputValue]
  | copy i => simp only [outputValue]; split <;> simp

theorem Evaluation.emit_ne_fault {s : State} :
    emit (r.outline x n) inputs s ≠ .error (.fault f) := by
  intro h
  unfold emit at h
  split at h
  · cases h
  · rename_i hf
    cases h
    exact Recipe.failure_ne_fault hf
  · rcases bind_eq_error.mp h with h | ⟨outs, -, h⟩
    · obtain ⟨o, -, ho⟩ := exists_of_mapM_error h
      exact outputValue_ne_fault ho
    · cases h

/-- The nodes that are being evaluated feed one another, up to the one that is blocked.  One of them
that is to be evaluated again closes a cycle. -/
theorem Blocked.dataCycle (hb : Index.Built catalog nodes connections x) {pass : Pass}
    {pending : List String} {f : Failure} (h : Blocked x pass pending n f) :
    ∀ {id : String} {g : Fault}, x.node? id = some n →
      (∀ a ∈ pending, n.hasExec = false ∧
        ReflTransGen (Graph.DataEdge catalog nodes connections) id a) →
      f = .fault g → g.isCycle = true →
        ∃ c, g = .dataCycle c ∧ TransGen (Graph.DataEdge catalog nodes connections) c c := by
  induction h with
  | literal mem data free fails =>
    rintro id g hn hpending rfl hg
    exact absurd fails Evaluation.literal_ne_fault
  | outline recipe scopes resolved fails =>
    rintro id g hn hpending rfl hg
    exact absurd fails Evaluation.emit_ne_fault
  | @source pending n m e f feeds node fails =>
    intro id g hn hpending hfg hg
    cases hfg
    cases fails with
    | again data under =>
      -- the node that is asked for again is further up the path that led here
      obtain ⟨hx, hpath⟩ := hpending e.node under
      have hedge := Graph.dataEdge_of_feeds hb hn hx node data feeds
      exact ⟨e.node, rfl, .head' hedge hpath⟩
    | _ => cases hg
  | @through pending n m e f feeds node data fresh blocked ih =>
    intro id g hn hpending hfg hg
    refine ih node (fun a ha => ⟨data, ?_⟩) hfg hg
    rcases List.mem_cons.mp ha with rfl | ha
    · exact .refl
    · obtain ⟨hx, hpath⟩ := hpending a ha
      exact .head (Graph.dataEdge_of_feeds hb hn hx node data feeds) hpath

/-! ### Nodes that the layout meets again -/

namespace Flow

variable {id : String} {targets work : List String} {p : Progress}

/-- The node `v` is led to from `u` alone, and along one connection of each output. -/
structure Sole (x : Index) (u v : String) : Prop where
  source : ∀ {a e}, e ∈ exits x a → v ∈ x.targets e → a = u
  once   : ∀ {e}, e ∈ exits x u → (x.targets e).count v ≤ 1

/-- A list of targets of a node, where `u` alone leads to `v`. -/
structure Ahead (u v id : String) (targets : List String) : Prop where
  source : v ∈ targets → id = u
  once   : targets.count v ≤ 1

namespace Sole

/-- Targets that an output of the node leads to. -/
theorem ahead (h : Sole x u v) {targets : List String}
    (hexit : ∀ a ∈ targets, ∃ e ∈ exits x id, targets = x.targets e) : Ahead u v id targets := by
  by_cases hv : v ∈ targets
  · obtain ⟨e, he, rfl⟩ := hexit v hv
    obtain rfl := h.source he hv
    exact ⟨fun _ => rfl, h.once he⟩
  · refine ⟨fun hm => absurd hm hv, ?_⟩
    rw [List.count_eq_zero_of_not_mem hv]
    exact Nat.zero_le 1

theorem job (h : Sole x u v) (hb : Index.Built catalog nodes connections x)
    (hn : x.node? id = some n) (hi : n.definition.isEntry = false)
    (hr : Recipe.ofType? n.node.nodeType = some r) {job : Item × List String}
    (hj : job ∈ jobs x n (Outline.splitTail (r.outline x n).items).1) : Ahead u v id job.2 :=
  h.ahead fun _ => exit_of_job hb hn hi hr hj

theorem tail (h : Sole x u v) (hb : Index.Built catalog nodes connections x)
    (hn : x.node? id = some n) (hi : n.definition.isEntry = false)
    (hr : Recipe.ofType? n.node.nodeType = some r) :
    Ahead u v id (tailTargets x n (r.outline x n).items) :=
  h.ahead fun _ => exit_of_tail hb hn hi hr

theorem entryJob (h : Sole x u v) (hn : x.node? n.node.id = some n)
    (he : n.definition.isEntry = true) {job : Item × List String} (hj : job ∈ entryJobs x n) :
    Ahead u v n.node.id job.2 := by
  obtain ⟨s, hs, rfl⟩ := List.mem_map.mp hj
  exact h.ahead fun _ _ => ⟨_, mem_exits_of_entry hn he hs, rfl⟩

end Sole

/-- Where `u` alone leads to `v`: the node `v` is waiting only once, after `u` and before it is
active. -/
structure Guarded (u v : String) (work : List String) (p : Progress) : Prop where
  active : v ∈ p.active → v ∉ work
  once   : work.count v ≤ 1
  work   : v ∈ work → u ∈ p.seen

/-- What a node that is entered adds to the work is guarded. -/
theorem Guarded.ahead (h : Guarded u v (id :: work) p) (hseen : v ∈ p.seen → u ∈ p.seen)
    (hid : id ∉ p.seen) (ha : Ahead u v id targets) : Guarded u v targets (p.start id) := by
  refine ⟨fun hv ht => ?_, ha.once, fun ht => ?_⟩
  · -- the node would have been waiting before its only source was entered
    obtain rfl := ha.source ht
    rcases List.mem_cons.mp hv with rfl | hv
    · exact hid (h.work (.head _))
    · exact hid (hseen (List.mem_append_left _ hv))
  · obtain rfl := ha.source ht
    exact .head _

/-- The work behind a node that is entered is guarded again. -/
theorem Guarded.behind {p q : Progress} (h : Guarded u v (id :: work) p)
    (hseen : v ∈ p.seen → u ∈ p.seen) (hid : id ∉ p.seen) (ha : Ahead u v id targets)
    (hactive : q.active = (p.start id).active) (hq : ∀ a ∈ (p.start id).seen, a ∈ q.seen) :
    Guarded u v (targets ++ work) q := by
  have hahead := h.ahead hseen hid ha
  refine ⟨fun hv ht => ?_, ?_, fun ht => ?_⟩
  · rw [hactive] at hv
    rcases List.mem_append.mp ht with ht | ht
    · exact hahead.active hv ht
    · rcases List.mem_cons.mp hv with rfl | hv
      · have := h.once
        rw [List.count_cons_self] at this
        have := List.count_pos_iff.mpr ht
        omega
      · exact h.active hv (.tail _ ht)
  · rw [List.count_append]
    by_cases ht : v ∈ targets
    · obtain rfl := ha.source ht
      have hnot : v ∉ work := fun hw => hid (h.work (.tail _ hw))
      rw [List.count_eq_zero_of_not_mem hnot]
      exact ha.once
    · rw [List.count_eq_zero_of_not_mem ht, Nat.zero_add]
      exact (List.count_le_count_cons).trans h.once
  · rcases List.mem_append.mp ht with ht | ht
    · exact hq u (hahead.work ht)
    · exact hq u (List.mem_cons_of_mem _ (h.work (.tail _ ht)))

/-- Only the node itself can be met again. -/
theorem active_of_reentry (hv : (x.node? v).isSome) (h : enter x p id = .error (.execReentry v)) :
    id = v ∧ v ∈ p.active := by
  unfold enter at h
  split at h
  · rename_i hn
    cases h
    simp [hn] at hv
  split at h
  · cases h
    exact ⟨rfl, by assumption⟩
  split at h
  · cases h
  split at h <;> cases h

end Flow

/-- The jobs of a node end with what was active before them. -/
theorem Lays.active_eq {jobs : Flow.Jobs} {p q : Progress} {own : Parts}
    (h : Lays x jobs p own q) : q.active = p.active := by
  induction jobs generalizing p own with
  | nil =>
    cases h
    rfl
  | cons job jobs ih =>
    cases h with
    | job _ _ h =>
      -- a job that ends gives back what was active when it began
      have hq := ih h
      exact hq

mutual

/-- **A node that one connection leads to is not met again.** -/
theorem Unrolls.not_reentered (hb : Index.Built catalog nodes connections x) {u v : String}
    (hs : Flow.Sole x u v) (hv : (x.node? v).isSome) :
    ∀ {work : List String} {p q : Progress} {c : Chain}, Unrolls x work p c q →
      Flow.Guarded u v work p → (v ∈ p.seen → u ∈ p.seen) →
        .execReentry v ∉ c.faults ∧ (v ∈ q.seen → u ∈ q.seen)
  | _, _, _, _, .nil, _, hseen => ⟨by simp [Chain.faults], hseen⟩
  | _, _, _, _, .skip _ h, hg, hseen =>
    h.not_reentered hb hs hv ⟨fun ha hw => hg.active ha (.tail _ hw),
      List.count_le_count_cons.trans hg.once, fun hw => hg.work (.tail _ hw)⟩ hseen
  | _, _, _, _, .halt _ he, hg, hseen => by
    refine ⟨fun hm => ?_, hseen⟩
    obtain rfl := List.mem_singleton.mp hm
    obtain ⟨rfl, ha⟩ := Flow.active_of_reentry hv he
    exact hg.active ha (.head _)
  | _, p, _, _, @Unrolls.step _ id work _ p₁ q n r own rest hf he hp hc, hg, hseen => by
    obtain ⟨hn, ha, hi, hr⟩ := Flow.enter_ok he
    have hid : id ∉ p.seen := by
      simp only [Progress.seen, List.mem_append, not_or]
      exact ⟨ha, hf⟩
    -- `v` stands in the work list only once `u` has been seen
    have hseen' : v ∈ (p.start id).seen → u ∈ (p.start id).seen := by
      intro hm
      rcases List.mem_cons.mp hm with rfl | hm
      · exact List.mem_cons_of_mem _ (hg.work (.head _))
      · exact List.mem_cons_of_mem _ (hseen hm)
    obtain ⟨hown, hseen₁⟩ := hp.not_reentered hb hs hv
      (fun job hj => hg.ahead hseen hid (hs.job hb hn hi hr hj)) hseen'
    obtain ⟨hrest, hseen₂⟩ := hc.not_reentered hb hs hv
      (hg.behind hseen hid (hs.tail hb hn hi hr) hp.active_eq
        fun a ha => (hp.visited.seen a).mpr (.inr ha)) hseen₁
    refine ⟨fun hm => ?_, hseen₂⟩
    exact (List.mem_append.mp hm).elim hown hrest

theorem Lays.not_reentered (hb : Index.Built catalog nodes connections x) {u v : String}
    (hs : Flow.Sole x u v) (hv : (x.node? v).isSome) :
    ∀ {jobs : Flow.Jobs} {p q : Progress} {own : Parts}, Lays x jobs p own q →
      (∀ job ∈ jobs, Flow.Guarded u v job.2 p) → (v ∈ p.seen → u ∈ p.seen) →
        .execReentry v ∉ own.faults ∧ (v ∈ q.seen → u ∈ q.seen)
  | _, _, _, _, .nil, _, hseen => ⟨by simp [Parts.faults], hseen⟩
  | _, p, _, _, @Lays.job _ item ts jobs _ now q body rest hl hbody h, hg, hseen => by
    obtain ⟨hfaults, hnow⟩ := hbody.not_reentered hb hs hv (hg _ (.head _)) hseen
    have hvisited := hbody.visited.finish
    have hkept : ∀ a ∈ p.seen, a ∈ (p.finishSince now).seen := fun a ha =>
      (hvisited.seen a).mpr (.inr ha)
    have hseen' : v ∈ (p.finishSince now).seen → u ∈ (p.finishSince now).seen := by
      rw [hvisited.seen, hvisited.seen, ← hbody.visited.seen, ← hbody.visited.seen]
      exact hnow
    obtain ⟨hrest, hq⟩ := h.not_reentered hb hs hv (fun job hj =>
      have hjob := hg job (.tail _ hj)
      ⟨hjob.active, hjob.once, fun hm => hkept u (hjob.work hm)⟩) hseen'
    refine ⟨fun hm => ?_, hq⟩
    rw [Item.part_faults fun hp => Unrolls.eq_done (hl hp ▸ hbody)] at hm
    exact (List.mem_append.mp hm).elim hfaults hrest

end

/-- In a graph where `u` alone leads to `v`, no flow meets `v` again; an entry `v` must not be led
to at all. -/
theorem Script.flows_not_reentered (hb : Index.Built catalog nodes connections x)
    (hs : Flow.Sole x u v) (hv : (x.node? v).isSome)
    (hentry : ∀ n, x.node? v = some n → n.definition.isEntry = true →
      u = v ∧ ∀ a, ∀ e ∈ Flow.exits x a, v ∉ x.targets e) :
    ∀ {ns : List PlacedNode} {p : Progress}, Awaiting x ns p → p.active = [] →
      (v ∈ p.seen → u ∈ p.seen) → ∀ f ∈ flows x ns p, .execReentry v ∉ f.2.faults
  | [], _, _, _, _, _, h => by cases h
  | n :: ns, p, hns, hactive, hseen, f, hf => by
    obtain ⟨hn, he⟩ := hns.entries n (.head _)
    obtain ⟨now, hlays, hp⟩ := Flow.lays_entry (x := x) n p
    have hstart : v ∈ (p.start n.node.id).seen → u ∈ (p.start n.node.id).seen := by
      intro hm
      rcases List.mem_cons.mp hm with rfl | hm
      · rw [(hentry n hn he).1]
        exact .head _
      · exact List.mem_cons_of_mem _ (hseen hm)
    have hguard : ∀ job ∈ Flow.entryJobs x n, Flow.Guarded u v job.2 (p.start n.node.id) := by
      intro job hj
      have hahead := hs.entryJob hn he hj
      refine ⟨fun ha hm => ?_, hahead.once, fun hm => ?_⟩
      · simp only [Progress.start, hactive, List.mem_singleton] at ha
        subst ha
        obtain ⟨s, hs', rfl⟩ := List.mem_map.mp hj
        exact (hentry n hn he).2 _ _ (Flow.mem_exits_of_entry hn he hs') hm
      · rw [← hahead.source hm]
        exact .head _
    obtain ⟨hfaults, hnow⟩ := hlays.not_reentered hb hs hv hguard hstart
    rcases List.mem_cons.mp hf with rfl | hf
    · exact hfaults
    · have hvisited := (Visited.start (hns.fresh n (.head _))).trans hlays.visited
      refine flows_not_reentered hb hs hv hentry hns.entry.2 ?_ ?_ f hf
      · rw [hp]
        exact hactive
      · rw [hp, hvisited.finish.seen, hvisited.finish.seen, ← hvisited.seen, ← hvisited.seen]
        exact hnow

/-- A node that at most one connection leads to. -/
theorem Flow.sole_of_unique (hb : Index.Built catalog nodes connections x)
    (hsource : ∀ c ∈ connections, x.Continues c → c.target.node = v → c.source.node = u)
    (hunique : ∀ c ∈ connections, ∀ c' ∈ connections, x.Continues c → x.Continues c' →
      c.target.node = v → c'.target.node = v → c = c') : Sole x u v := by
  constructor
  · intro a e he hv
    obtain ⟨c, hc, rfl⟩ := List.mem_map.mp hv
    obtain ⟨hc, hx, ha⟩ := hb.continues_of_exit he hc
    rw [← hsource c hc hx rfl, ha]
  · intro e he
    have hmem : ∀ c ∈ (x.outgoingOf e).filter (·.target.node == v),
        c ∈ connections ∧ x.Continues c ∧ c.target.node = v := by
      intro c hc
      obtain ⟨hc, ht⟩ := List.mem_filter.mp hc
      obtain ⟨hc, hx, -⟩ := hb.continues_of_exit he hc
      exact ⟨hc, hx, by simpa using ht⟩
    have hnodup : ((x.outgoingOf e).filter (·.target.node == v)).Nodup := by
      rw [hb.outgoing]
      exact ((List.Nodup.of_map _ hb.single).filter _).filter _
    rw [Index.targets, List.count, List.countP_map, List.countP_eq_length_filter]
    change ((x.outgoingOf e).filter (·.target.node == v)).length ≤ 1
    generalize (x.outgoingOf e).filter (·.target.node == v) = cs at hmem hnodup
    rcases cs with _ | ⟨c, _ | ⟨c', cs⟩⟩
    · exact Nat.zero_le 1
    · exact Nat.le_refl 1
    · obtain ⟨hc, hx, hv⟩ := hmem c (.head _)
      obtain ⟨hc', hx', hv'⟩ := hmem c' (.tail _ (.head _))
      have hsame := hunique c hc c' hc' hx hx' hv hv'
      simp [hsame] at hnodup

namespace Script

/-- A node that the layout meets again is an entry that a connection leads to, or two connections
lead to it. -/
theorem meeting_of_reentry (hb : Index.Built catalog nodes connections x) {n : PlacedNode}
    {flow : Parts} {v : String} (hflow : (n, flow) ∈ flows x x.entries {})
    (hv : (x.node? v).isSome) (hf : .execReentry v ∈ flow.faults) :
    ∃ c ∈ connections, x.Continues c ∧ c.target.node = v ∧
      ((∃ m, x.node? v = some m ∧ m.definition.isEntry = true) ∨
        ∃ c' ∈ connections, c' ≠ c ∧ x.Continues c' ∧ c'.target.node = v) := by
  -- otherwise one connection at most leads to the node, and then no flow meets it again
  by_contra hnone
  have hall : ∀ c ∈ connections, x.Continues c → c.target.node = v →
      (∀ m, x.node? v = some m → m.definition.isEntry = false) ∧
        ∀ c' ∈ connections, x.Continues c' → c'.target.node = v → c' = c := by
    intro c hc hx ht
    refine ⟨fun m hm => ?_, fun c' hc' hx' ht' => ?_⟩
    · by_contra he
      exact hnone ⟨c, hc, hx, ht, .inl ⟨m, hm, by simpa using he⟩⟩
    · by_contra hne
      exact hnone ⟨c, hc, hx, ht, .inr ⟨c', hc', hne, hx', ht'⟩⟩
  have hunique : ∀ c ∈ connections, ∀ c' ∈ connections, x.Continues c → x.Continues c' →
      c.target.node = v → c'.target.node = v → c = c' :=
    fun c hc c' hc' hx hx' ht ht' => (hall c' hc' hx' ht').2 c hc hx ht
  have hno : ∀ {u}, Flow.Sole x u v → (∀ n, x.node? v = some n → n.definition.isEntry = true →
      u = v ∧ ∀ a, ∀ e ∈ Flow.exits x a, v ∉ x.targets e) → False := fun hs hentry =>
    flows_not_reentered hb hs hv hentry (awaiting_entries hb) rfl (by simp [Progress.seen]) _ hflow
      hf
  by_cases hled : ∃ c ∈ connections, x.Continues c ∧ c.target.node = v
  · obtain ⟨c, hc, hx, ht⟩ := hled
    refine hno (Flow.sole_of_unique hb (u := c.source.node) (fun c' hc' hx' ht' => ?_) hunique) ?_
    · rw [(hall c hc hx ht).2 c' hc' hx' ht']
    · intro m hm he
      simp [(hall c hc hx ht).1 m hm] at he
  · refine hno (Flow.sole_of_unique hb (u := v) (fun c hc hx ht => ?_) hunique) ?_
    · exact absurd ⟨c, hc, hx, ht⟩ hled
    · refine fun m hm he => ⟨rfl, fun a e hexit hm => hled ?_⟩
      obtain ⟨c, hc, rfl⟩ := List.mem_map.mp hm
      obtain ⟨hc, hx, -⟩ := hb.continues_of_exit hexit hc
      exact ⟨c, hc, hx, rfl⟩

theorem execCycle_of_build {f : Fault} (hf : f.isCycle = true)
    (h : Index.build catalog nodes connections = .error f) :
    ∃ id, f = .execCycle id ∧ TransGen (Graph.ExecEdge catalog nodes connections) id id := by
  cases Graph.reported_of_build h with
  | node _ _ flaw => cases flaw <;> cases hf
  | connection _ _ _ flaw => cases flaw <;> cases hf
  | entry _ _ _ _ flaw => cases flaw; cases hf
  | cycle _ _ _ flaw => exact ⟨_, rfl, flaw⟩

/-- **What a reported cycle is.**  The check of a graph names a node on a cycle of exec connections,
and the reading of values a node on a cycle of connections between nodes that no control passes
through.  What the layout of a checked graph names is on no cycle of exec connections: it goes on to
the node along two connections, or along one and the node is an entry. -/
theorem reported_cycle {indent moduleId : String} {f : Fault} (hf : f.isCycle = true)
    (h : Index.build catalog nodes connections = .error f ∨
      generate catalog indent moduleId nodes connections = .error (.fault f)) :
    (∃ id, f = .execCycle id ∧ TransGen (Graph.ExecEdge catalog nodes connections) id id) ∨
    (∃ id, f = .dataCycle id ∧ TransGen (Graph.DataEdge catalog nodes connections) id id) ∨
    ∃ id x, f = .execReentry id ∧ Index.build catalog nodes connections = .ok x ∧
      ¬ TransGen (Graph.ExecEdge catalog nodes connections) id id ∧
      ∃ c ∈ connections, x.Continues c ∧ c.target.node = id ∧
        ((∃ n, x.node? id = some n ∧ n.definition.isEntry = true) ∨
          ∃ c' ∈ connections, c' ≠ c ∧ x.Continues c' ∧ c'.target.node = id) := by
  rcases h with hbuild | hgen
  · exact .inl (execCycle_of_build hf hbuild)
  rcases generate_error hgen with ⟨g, hbuild, hfg⟩ | ⟨x, hbuild, -⟩
  · cases hfg
    exact .inl (execCycle_of_build hf hbuild)
  refine .inr ?_
  have hb := Index.built_of_build hbuild
  obtain ⟨n, flow, hflow, ⟨g, hg, hfg⟩ | ⟨id, -, m, hm, hblocked⟩ | ⟨-, hf'⟩⟩ :=
    failure_of_generate hbuild hgen
  · cases hfg
    obtain ⟨p, id, hid, he⟩ := refused_of_mem_faults hb hflow hg
    obtain ⟨m, hm⟩ := Option.isSome_iff_exists.mp hid
    have hreentry : f = .execReentry id := by
      unfold Flow.enter at he
      simp only [hm] at he
      repeat' split at he
      all_goals cases he
      all_goals first | rfl | cases hf
    subst hreentry
    exact .inr ⟨id, x, rfl, hbuild, (Graph.wellFormed_of_build hbuild).acyclic id,
      meeting_of_reentry hb hflow hid hg⟩
  · obtain ⟨c, rfl, hc⟩ := hblocked.dataCycle hb hm (by simp) rfl hf
    exact .inl ⟨c, rfl, hc⟩
  · cases hf'

/-- Two values that are made from each other. -/
def mutualNodes : List Node :=
  [{ id := "spawn", nodeType := "on-player-respawned" }, { id := "note", nodeType := "print" },
   { id := "sum", nodeType := "math-add" }, { id := "twice", nodeType := "math-multiply" }]

def mutualConnections : List Connection :=
  [⟨"c0", ⟨"spawn", "output_0"⟩, ⟨"note", "input_0"⟩⟩,
   ⟨"c1", ⟨"sum", "output_0"⟩, ⟨"note", "input_1"⟩⟩,
   ⟨"c2", ⟨"twice", "output_0"⟩, ⟨"sum", "input_1"⟩⟩,
   ⟨"c3", ⟨"sum", "output_0"⟩, ⟨"twice", "input_0"⟩⟩]

theorem reported_cycle_mutual :
    generate .builtin "\t" "demo" mutualNodes mutualConnections =
        .error (.fault (.dataCycle "sum")) ∧
      TransGen (Graph.DataEdge .builtin mutualNodes mutualConnections) "sum" "sum" := by
  have hgen : generate .builtin "\t" "demo" mutualNodes mutualConnections =
      .error (.fault (.dataCycle "sum")) := by
    rw [generate, Index.build, Index.addNode_builtin]
    decide +kernel
  refine ⟨hgen, ?_⟩
  obtain ⟨id, h, -⟩ | ⟨id, h, hcycle⟩ | ⟨id, x, h, -⟩ := reported_cycle rfl (.inr hgen)
  · cases h
  · cases h
    exact hcycle
  · cases h

/-- Two branches that meet again; each comes in at an exec input of its own. -/
def meetingNodes : List Node :=
  [{ id := "spawn", nodeType := "on-player-respawned" }, { id := "a", nodeType := "print" },
   { id := "b", nodeType := "print" }, { id := "c", nodeType := "print" },
   { id := "d", nodeType := "print"
     inputs := [{ id := "i0", kind := .exec }, { id := "i1", kind := .exec }]
     outputs := [{ id := "o0", kind := .exec, isInput := false }] }]

def meetingConnections : List Connection :=
  [⟨"c0", ⟨"spawn", "output_0"⟩, ⟨"a", "input_0"⟩⟩,
   ⟨"c1", ⟨"a", "output_0"⟩, ⟨"b", "input_0"⟩⟩, ⟨"c2", ⟨"a", "output_0"⟩, ⟨"c", "input_0"⟩⟩,
   ⟨"c3", ⟨"b", "output_0"⟩, ⟨"d", "i0"⟩⟩, ⟨"c4", ⟨"c", "output_0"⟩, ⟨"d", "i1"⟩⟩]

/-- The node at which the branches meet is reported as a cycle, and it is on none. -/
theorem meeting_reported : ∃ x, Index.build .builtin meetingNodes meetingConnections = .ok x ∧
    generate .builtin "\t" "demo" meetingNodes meetingConnections =
      .error (.fault (.execReentry "d")) ∧
    Fault.isCycle (.execReentry "d") = true ∧
    ¬ TransGen (Graph.ExecEdge .builtin meetingNodes meetingConnections) "d" "d" ∧
    ¬ TransGen (Graph.DataEdge .builtin meetingNodes meetingConnections) "d" "d" := by
  have hgen : generate .builtin "\t" "demo" meetingNodes meetingConnections =
      .error (.fault (.execReentry "d")) := by
    rw [generate, Index.build, Index.addNode_builtin]
    decide +kernel
  obtain ⟨x, hx⟩ : ∃ x, Index.build .builtin meetingNodes meetingConnections = .ok x := by
    rcases generate_error hgen with ⟨g, hbuild, hg⟩ | ⟨x, hx, -⟩
    · cases hg
      obtain ⟨id, h, -⟩ := execCycle_of_build rfl hbuild
      cases h
    · exact ⟨x, hx⟩
  have hexec : ¬ Graph.DataOnly .builtin meetingNodes "d" := by
    have hports : ∀ node ∈ meetingNodes, node.id = "d" →
        ¬ ∀ p ∈ node.ports .builtin true ++ node.ports .builtin false, p.kind = .data := by
      decide +kernel
    rintro ⟨node, hm, hid, hdata⟩
    exact hports node hm hid hdata
  refine ⟨x, hx, hgen, rfl, (Graph.wellFormed_of_build hx).acyclic "d", fun hcycle => ?_⟩
  obtain ⟨b, ⟨c, -, -, -, hdata, -⟩, -⟩ := TransGen.head'_iff.mp hcycle
  exact hexec hdata

end Script

end VisualScript
