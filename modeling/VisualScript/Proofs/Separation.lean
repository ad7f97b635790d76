import VisualScript.Proofs.Following
import VisualScript.Proofs.Recursion

/-!
# Proofs — Separation

The flows of entries that have no node in common.  A flow is laid out from the progress that the
flows before it have made, but what they have finished does not matter if the flow does not reach it
(`Unrolls.widen`).  Where every node is led to from one node at most, and entries from none, two
entries reach no common node; so the flow of an entry is the one it has alone
(`Script.flows_eq_map`).
-/

namespace VisualScript

open Relation

variable {x : Index}

/-! ### A layout is determined by its start -/

mutual

theorem Unrolls.unique : ∀ {work : List String} {p q q' : Progress} {c c' : Chain},
    Unrolls x work p c q → Unrolls x work p c' q' → c = c' ∧ q = q'
  | _, _, _, _, _, _, .nil, .nil => ⟨rfl, rfl⟩
  | _, _, _, _, _, _, .skip _ h, .skip _ h' => h.unique h'
  | _, _, _, _, _, _, .skip hf _, .halt hf' _ => absurd hf hf'
  | _, _, _, _, _, _, .skip hf _, .step hf' _ _ _ => absurd hf hf'
  | _, _, _, _, _, _, .halt hf _, .skip hf' _ => absurd hf' hf
  | _, _, _, _, _, _, .halt _ he, .halt _ he' => by
    cases he.symm.trans he'
    exact ⟨rfl, rfl⟩
  | _, _, _, _, _, _, .halt _ he, .step _ he' _ _ => by cases he.symm.trans he'
  | _, _, _, _, _, _, .step hf _ _ _, .skip hf' _ => absurd hf' hf
  | _, _, _, _, _, _, .step _ he _ _, .halt _ he' => by cases he.symm.trans he'
  | _, _, _, _, _, _, .step _ he hp hc, .step _ he' hp' hc' => by
    cases he.symm.trans he'
    obtain ⟨rfl, rfl⟩ := hp.unique hp'
    obtain ⟨rfl, rfl⟩ := hc.unique hc'
    exact ⟨rfl, rfl⟩

theorem Lays.unique : ∀ {jobs : Flow.Jobs} {p q q' : Progress} {own own' : Parts},
    Lays x jobs p own q → Lays x jobs p own' q' → own = own' ∧ q = q'
  | _, _, _, _, _, _, .nil, .nil => ⟨rfl, rfl⟩
  | _, _, _, _, _, _, .job _ hb h, .job _ hb' h' => by
    obtain ⟨rfl, rfl⟩ := hb.unique hb'
    obtain ⟨rfl, rfl⟩ := h.unique h'
    exact ⟨rfl, rfl⟩

end

/-! ### Nodes that have been finished elsewhere -/

/-- The progress with more nodes finished. -/
def Progress.widen (p : Progress) (more : List String) : Progress :=
  { p with finished := p.finished ++ more }

@[simp] theorem Progress.widen_finishSince (p now : Progress) (more : List String) :
    (p.widen more).finishSince (now.widen more) = (p.finishSince now).widen more := by
  simp [widen, finishSince]

mutual

/-- A layout that stays among the nodes `R` does not depend on what has been finished outside. -/
theorem Unrolls.widen {R : String → Prop} (hR : ∀ a, R a → ∀ b ∈ Flow.next x a, R b)
    {more : List String} (hmore : ∀ a ∈ more, ¬ R a) :
    ∀ {work : List String} {p q : Progress} {c : Chain}, Unrolls x work p c q →
      (∀ a ∈ work, R a) →
        Unrolls x work (p.widen more) c (q.widen more) ∧ ∀ id ∈ c.nodes, R id
  | _, _, _, _, .nil, _ => ⟨.nil, by simp [Chain.nodes]⟩
  | _, _, _, _, .skip hf h, hw => by
    obtain ⟨hwide, hnodes⟩ := h.widen hR hmore fun a ha => hw a (.tail _ ha)
    exact ⟨.skip (List.mem_append_left _ hf) hwide, hnodes⟩
  | _, _, _, _, @Unrolls.halt _ id _ _ _ hf he, hw => by
    refine ⟨.halt (fun hm => ?_) he, by simp [Chain.nodes]⟩
    exact (List.mem_append.mp hm).elim hf fun hm => hmore id hm (hw id (.head _))
  | _, _, _, _, @Unrolls.step _ id work p p₁ q n r own rest hf he hp hc, hw => by
    have hid : R id := hw id (.head _)
    -- the parts and the rest of the chain go on to what the node leads to, so they stay in `R`
    have hnext := Flow.next_of_enter he
    obtain ⟨hown, hownNodes⟩ := hp.widen hR hmore fun job hj a ha => hR id hid a <| by
      rw [hnext]
      exact List.mem_append_left _ (List.mem_flatMap.mpr ⟨job, hj, ha⟩)
    obtain ⟨hrest, hrestNodes⟩ := hc.widen hR hmore fun a ha => by
      rcases List.mem_append.mp ha with ha | ha
      · exact hR id hid a (hnext ▸ List.mem_append_right _ ha)
      · exact hw a (.tail _ ha)
    refine ⟨.step (fun hm => ?_) he hown hrest, fun a ha => ?_⟩
    · exact (List.mem_append.mp hm).elim hf fun hm => hmore id hm hid
    · rcases List.mem_cons.mp ha with rfl | ha
      · exact hid
      · exact (List.mem_append.mp ha).elim (hownNodes a) (hrestNodes a)

theorem Lays.widen {R : String → Prop} (hR : ∀ a, R a → ∀ b ∈ Flow.next x a, R b)
    {more : List String} (hmore : ∀ a ∈ more, ¬ R a) :
    ∀ {jobs : Flow.Jobs} {p q : Progress} {own : Parts}, Lays x jobs p own q →
      (∀ job ∈ jobs, ∀ a ∈ job.2, R a) →
        Lays x jobs (p.widen more) own (q.widen more) ∧ ∀ id ∈ own.nodes, R id
  | _, _, _, _, .nil, _ => ⟨.nil, by simp [Parts.nodes]⟩
  | _, _, _, _, .job hl hb h, hj => by
    obtain ⟨hbody, hbodyNodes⟩ := hb.widen hR hmore (hj _ (.head _))
    obtain ⟨hrest, hrestNodes⟩ := h.widen hR hmore fun job hm => hj job (.tail _ hm)
    rw [← Progress.widen_finishSince] at hrest
    refine ⟨.job hl hbody hrest, fun a ha => ?_⟩
    rw [Item.part_nodes fun hp => Unrolls.eq_done (hl hp ▸ hb)] at ha
    exact (List.mem_append.mp ha).elim (hbodyNodes a) (hrestNodes a)

end

/-! ### Entries apart -/

namespace Flow

/-- No node is led to from two nodes. -/
def Single (x : Index) : Prop := ∀ {a b c}, c ∈ next x a → c ∈ next x b → a = b

/-- Two nodes that nothing leads to reach no common node. -/
theorem Single.apart (h : Single x) {a b c : String} (ha : ∀ d, a ∉ next x d)
    (hb : ∀ d, b ∉ next x d) (hac : ReflTransGen (Leads x) a c) (hbc : ReflTransGen (Leads x) b c) :
    a = b := by
  have hunique : Relator.RightUnique (Function.swap (Leads x)) := fun _ _ _ h₁ h₂ => h h₁ h₂
  have hback : ∀ {d}, ReflTransGen (Leads x) d c → ReflTransGen (Function.swap (Leads x)) c d :=
    fun hd => reflTransGen_swap.mpr hd
  have hroot : ∀ {d e}, (∀ f, d ∉ next x f) → ReflTransGen (Function.swap (Leads x)) d e →
      d = e := by
    intro d e hd hde
    rcases ReflTransGen.cases_head hde with rfl | ⟨f, hf, -⟩
    · rfl
    · exact absurd hf (hd f)
  rcases ReflTransGen.total_of_right_unique hunique (hback hac) (hback hbc) with h | h
  · exact hroot ha h
  · exact (hroot hb h).symm

end Flow

namespace Script

/-- **The flow of an entry is the one it has alone**, if no node is led to from two nodes and
entries are led to from none. -/
theorem flows_eq_map (hsingle : Flow.Single x)
    (hroot : ∀ {a b m}, b ∈ Flow.next x a → x.node? b = some m → m.definition.isEntry = false) :
    ∀ {ns : List PlacedNode} {p : Progress}, Awaiting x ns p → p.active = [] →
      (∀ n ∈ ns, ∀ a ∈ p.finished, ¬ ReflTransGen (Flow.Leads x) n.node.id a) →
      flows x ns p = ns.map fun n => (n, (Flow.entry x n {}).1)
  | [], _, _, _, _ => rfl
  | n :: ns, p, hns, hactive, hapart => by
    obtain ⟨hn, he⟩ := hns.entries n (.head _)
    have hfree : ∀ m ∈ n :: ns, ∀ a, m.node.id ∉ Flow.next x a := by
      intro m hm a ha
      obtain ⟨hm, he⟩ := hns.entries m hm
      simp [hroot ha hm] at he
    -- the flow of the entry alone, with what is finished by now added, starts as its flow does
    obtain ⟨now, hlays, hp⟩ := Flow.lays_entry (x := x) n p
    obtain ⟨now₀, hlays₀, -⟩ := Flow.lays_entry (x := x) n {}
    obtain ⟨hwide, hnodes⟩ := hlays₀.widen (R := ReflTransGen (Flow.Leads x) n.node.id)
      (fun a ha b hb => ha.tail hb) (hapart n (.head _)) (fun job hj a ha => by
        refine .single ?_
        rw [Flow.Leads, Flow.next_of_entry hn he]
        exact List.mem_flatMap.mpr ⟨job, hj, ha⟩)
    have hstart : (({} : Progress).start n.node.id).widen p.finished = p.start n.node.id := by
      simp [Progress.widen, Progress.start, hactive]
    rw [hstart] at hwide
    have hflow : (Flow.entry x n p).1 = (Flow.entry x n {}).1 := (hlays.unique hwide).1
    obtain ⟨hvisited, hrest⟩ := hns.entry
    have hactive' : (Flow.entry x n p).2.active = [] := by
      rw [hp]
      exact hactive
    have hcons : flows x (n :: ns) p =
        (n, (Flow.entry x n p).1) :: flows x ns (Flow.entry x n p).2 := rfl
    rw [hcons, hflow, List.map_cons, flows_eq_map hsingle hroot hrest hactive']
    · -- what this flow has finished, a later entry does not reach
      intro m hm a ha hreach
      have hne : n.node.id ≠ m.node.id := fun h =>
        (List.nodup_cons.mp hns.nodup).1 (List.mem_map.mpr ⟨m, hm, h.symm⟩)
      have hmeet : ReflTransGen (Flow.Leads x) n.node.id a → False := fun h =>
        hne (hsingle.apart (hfree n (.head _)) (hfree m (.tail _ hm)) h hreach)
      rcases (hvisited.seen a).mp (List.mem_append_right _ ha) with hmem | hmem
      · rcases List.mem_cons.mp hmem with rfl | hmem
        · exact hmeet .refl
        · exact hmeet (hnodes a (hflow ▸ hmem))
      · rw [Progress.seen, hactive] at hmem
        exact hapart m (.tail _ hm) a hmem hreach

end Script

end VisualScript
