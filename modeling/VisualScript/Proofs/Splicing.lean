import VisualScript.Proofs.Anchoring
import VisualScript.Proofs.Pairing

/-!
# Proofs — Splicing

Hoisted declarations in the text of a generated function.

* `Flow.entry_steady`: in the flow of an entry every node only goes on from chain to chain, or
  writes a line before it opens a block.
* `EntryFunction.anchors_hold`: at every moment of a pass the anchors part the lines that stood on
  the page from those written since, and at its end the pages hold the code the pass returns.
-/

namespace VisualScript

/-- Items that never go on at the level of their node, and that begin with a line or a thread. -/
def Item.Leads : (begun : Bool) → List Item → Prop
  | _,     []                  => True
  | _,     .line _ :: items    => Leads true items
  | _,     .follow _ :: _      => False
  | begun, .block .. :: items  => begun = true ∧ Leads true items
  | _,     .thread .. :: items => Leads true items

namespace Recipe

theorem leads_lines (lines : List Template) : ∀ begun, Item.Leads begun (lines.map .line) := by
  induction lines with
  | nil => exact fun _ => trivial
  | cons _ lines ih => exact fun _ => ih true

theorem leads_caseItems (type : ValueType) (n : PlacedNode) {items : List Item}
    (h : Item.Leads true items) : ∀ (i : Nat) (vs : List Json),
      Item.Leads true (caseItems type n i vs ++ items)
  | _, [] => h
  | i, v :: vs => by
    rw [caseItems]
    split
    · exact ⟨rfl, leads_caseItems type n h (i + 1) vs⟩
    · exact h

theorem leads_switchItems (type : ValueType) (x : Index) (n : PlacedNode) (cases : List Json) :
    Item.Leads false (Outline.splitTail (switchItems type x n cases)).1 := by
  have hend : Item.Leads true (switchEnd x n) := by
    unfold switchEnd
    split
    · exact ⟨rfl, trivial⟩
    · trivial
  rw [switchItems_eq, splitTail_concat]
  exact leads_caseItems type n hend 0 cases

/-- The items of a node are outputs to go on with, or begin with a line or a thread. -/
theorem items_lead (x : Index) (n : PlacedNode) (r : Recipe) :
    (∃ ports : List String, (Outline.splitTail (r.outline x n).items).1 = ports.map .follow) ∨
      Item.Leads false (Outline.splitTail (r.outline x n).items).1 := by
  cases r with
  | statement lines =>
    refine .inr ?_
    have h := splitTail_concat (lines.map .line) "then"
    simp only [outline]
    rw [h]
    exact leads_lines lines false
  | sequence =>
    refine .inl ?_
    obtain ⟨ports, hports⟩ :=
      splitTail_follows ((n.outputs.filter (·.port.kind == .exec)).map Socket.name)
    refine ⟨ports, ?_⟩
    rw [← hports, List.map_map]
    rfl
  | branch =>
    refine .inr ?_
    simp only [outline]
    split
    · exact ⟨rfl, rfl, trivial⟩
    · exact ⟨rfl, trivial⟩
  | switch type =>
    refine .inr ?_
    simp only [outline]
    split <;> exact leads_switchItems type x n _
  | constant type key output =>
    refine .inr ?_
    simp only [outline]
    split <;> trivial
  | loopFor => exact .inr ⟨rfl, trivial⟩
  | loopEach => exact .inr ⟨rfl, trivial⟩
  | loopWhile => exact .inr ⟨rfl, trivial⟩
  | registerWeapon => exact .inr (leads_lines weaponLines false)
  | bound | expression | thread | append | stop | reroute => exact .inr trivial

end Recipe

namespace Flow

variable {x : Index} {n : PlacedNode} {f : List String → Progress → Chain × Progress}

theorem parts_onlyFollows : ∀ (ports : List String) (p : Progress),
    (parts x n f (ports.map .follow) p).1.OnlyFollows
  | [],         _ => trivial
  | _ :: ports, _ => parts_onlyFollows ports _

theorem parts_leads : ∀ (items : List Item) {begun : Bool} (p : Progress),
    Item.Leads begun items → (parts x n f items p).1.Leads begun
  | [], _, _, _ => trivial
  | .line _ :: items, _, _, h => parts_leads items _ h
  | .follow _ :: _, _, _, h => h.elim
  | .block .. :: items, _, _, h => ⟨h.1, parts_leads items _ h.2⟩
  | .thread .. :: items, _, _, h => parts_leads items _ h

theorem parts_steady (hf : ∀ ids p, (f ids p).1.Steady) : ∀ (items : List Item) (p : Progress),
    (parts x n f items p).1.Steady
  | [], _ => trivial
  | .line _ :: items, _ => parts_steady hf items _
  | .follow _ :: items, _ => ⟨hf _ _, parts_steady hf items _⟩
  | .block .. :: items, _ => ⟨hf _ _, parts_steady hf items _⟩
  | .thread .. :: items, _ => ⟨hf _ _, parts_steady hf items _⟩

theorem unroll_steady (x : Index) : ∀ (fuel : Nat) (work : List String) (p : Progress),
    (unroll x fuel work p).1.Steady := by
  intro fuel
  induction fuel with
  | zero => exact fun _ _ => trivial
  | succ fuel ih =>
    intro work p
    cases work with
    | nil => trivial
    | cons id work =>
      by_cases hf : id ∈ p.finished
      · rw [unroll, if_pos hf]
        exact ih work p
      cases he : enter x p id with
      | error f =>
        rw [unroll, if_neg hf, he]
        trivial
      | ok entered =>
        obtain ⟨n, r⟩ := entered
        rw [unroll_enter hf he]
        refine ⟨?_, parts_steady (f := nested x fuel) (fun ids q => ih ids q) _ _, ih _ _⟩
        rcases r.items_lead x n with ⟨ports, hports⟩ | hlead
        · left
          rw [hports]
          exact parts_onlyFollows ports _
        · exact .inr (parts_leads _ _ hlead)

theorem followAll_steady (x : Index) (n : PlacedNode) : ∀ (outputs : List Socket) (p : Progress),
    (followAll x n outputs p).1.OnlyFollows ∧ (followAll x n outputs p).1.Steady
  | [],           _ => ⟨trivial, trivial⟩
  | _ :: outputs, _ =>
    let rest := followAll_steady x n outputs _
    ⟨rest.1, unroll_steady x _ _ _, rest.2⟩

/-- In the flow of an entry every node only goes on from chain to chain, or writes a line before it
opens a block. -/
theorem entry_steady (x : Index) (n : PlacedNode) (p : Progress) :
    (entry x n p).1.OnlyFollows ∧ (entry x n p).1.Steady := by
  rw [entry_eq_followAll]
  exact followAll_steady x n _ _

end Flow

/-! ### Every moment of a pass -/

namespace Draft

/-- What holds of a draft after the edits `es`: an anchor was set when the items of a node began and
parts the lines of its page at that moment from those appended since, and the lines that are hoisted
declare variables. -/
structure Anchored (indent : String) (es : List Edit) : Prop where
  separates : ∀ a ∈ (ofEdits es).anchors, ∃ past node since, es = past ++ .enter node :: since ∧
    a.id = (ofEdits past).moment ∧ a.page = (ofEdits past).page ∧
    a.Separates ((ofEdits es).pages a.page) ((ofEdits past).pages a.page)
      (((ofEdits past).step (.enter node)).appended a.page since)
      (((ofEdits past).step (.enter node)).spliced a.id since)
  locals : ∀ k, ∀ l ∈ (ofEdits es).pages k, l.anchor.isSome = true →
    Code.IsDeclaration indent l.text

variable {indent : String} {d : Draft} {es : List Edit}

theorem Takes.hoist {past : List Edit} {level : Nat} {texts : List String}
    (h : d.Takes indent (past ++ [.hoist level texts])) :
    ((d.run past).opener? level).isSome ∧ ∀ text ∈ texts, Code.IsDeclaration indent text :=
  (takes_append.mp h).2.1 level texts rfl

/-- The hoisted lines on the pages are those of the edits. -/
theorem Takes.locals (h : d.Takes indent es)
    (hd : ∀ k, ∀ l ∈ d.pages k, l.anchor.isSome = true → Code.IsDeclaration indent l.text) :
    ∀ k, ∀ l ∈ (d.run es).pages k, l.anchor.isSome = true → Code.IsDeclaration indent l.text := by
  induction es generalizing d with
  | nil => exact hd
  | cons ed es ih =>
    refine ih h.2 fun k l hl hsome => ?_
    rcases mem_pages_step hl with hl | ⟨-, hnew⟩
    · exact hd k l hl hsome
    · obtain ⟨j, hj⟩ := Option.isSome_iff_exists.mp hsome
      obtain ⟨-, level, texts, rfl, htext⟩ := hnew j hj
      exact (h.1 level texts rfl).2 _ htext

end Draft

/-- **At every moment of a pass over the flow of an entry, anchors stay true.**  An anchor parts the
lines that stood on its page when the items of its node began from those written since, and only
hoisted declarations are added.  A declaration that is hoisted finds the anchor of the node that
opened the block inside its own and goes in right there.  At the end of a pass that succeeds the
pages hold the code it returns and the functions of its threads. -/
theorem EntryFunction.anchors_hold (indent : String) (x : Index) (pass : Pass) (n : PlacedNode)
    (p : Progress) :
    (∀ es, es <+: EditLog.walk indent x pass n (Flow.entry x n p).1 → Draft.Anchored indent es) ∧
    (∀ past level texts,
      past ++ [.hoist level texts] <+: EditLog.walk indent x pass n (Flow.entry x n p).1 →
      ∃ a ∈ (Draft.ofEdits past).anchors, (Draft.ofEdits past).opener? level = some a ∧
        (Draft.ofEdits (past ++ [.hoist level texts])).pages a.page =
          ((Draft.ofEdits past).pages a.page).take a.index ++
            (Draft.ofEdits past).stamp a.id texts ++
            ((Draft.ofEdits past).pages a.page).drop a.index) ∧
    ∀ code s, walkFlow x pass n (Flow.entry x n p).1 = .ok (code, s) →
      (Draft.ofEdits (EditLog.walk indent x pass n (Flow.entry x n p).1)).text 0 =
          code.render indent 1 ∧
        (Draft.ofEdits (EditLog.walk indent x pass n (Flow.entry x n p).1)).threads =
          code.threads.map (·.render indent) := by
  obtain ⟨hfollows, hsteady⟩ := Flow.entry_steady x n p
  generalize (Flow.entry x n p).1 = flow at hfollows hsteady
  have htakes : ({} : Draft).Takes indent (EditLog.walk indent x pass n flow) :=
    EditLog.walk_takes hfollows
  refine ⟨fun es hes => ⟨fun a ha => ?_, ?_⟩, fun past level texts hes => ?_, fun code s h => ?_⟩
  · obtain ⟨past, node, since, rfl, hid⟩ := Draft.exists_enter ha
    refine ⟨past, node, since, rfl, hid, ?_⟩
    rw [Draft.ofEdits_append] at ha ⊢
    exact Draft.anchors_separate (Draft.sound_ofEdits past) node since ha hid
  · obtain ⟨future, hfuture⟩ := hes
    rw [← hfuture] at htakes
    exact (Draft.takes_append.mp htakes).1.locals (by simp)
  · obtain ⟨future, hfuture⟩ := hes
    rw [← hfuture] at htakes
    obtain ⟨a, ha⟩ := Option.isSome_iff_exists.mp (Draft.takes_append.mp htakes).1.hoist.1
    refine ⟨a, Draft.opener?_mem ha, ha, ?_⟩
    rw [Draft.ofEdits_append, Draft.run_cons, Draft.run_nil]
    exact (Draft.pages_hoist ha texts a.page).trans (if_pos rfl)
  · exact EditLog.walk_text hfollows hsteady h

/-- Whether declarations are hoisted. -/
def Edit.isHoist : Edit → Bool
  | .hoist _ _ => true
  | _          => false

theorem Edit.eq_hoist {ed : Edit} (h : ed.isHoist = true) :
    ∃ level texts, ed = .hoist level texts := by
  cases ed with
  | hoist level texts => exact ⟨level, texts, rfl⟩
  | _ => cases h

/-- The number that both branches read is hoisted in front of the fork. -/
theorem EntryFunction.anchors_hold_roll : ∃ x n first recorded code last past level texts a,
    Index.build .builtin rollNodes rollConnections = .ok x ∧ x.node? "spawn" = some n ∧
      walk x .recording n (Flow.entry x n {}).1 = .ok (first, recorded) ∧
      walk x (.placing recorded.reads) n (Flow.entry x n {}).1 = .ok (code, last) ∧
      past ++ [.hoist level texts] <+:
        EditLog.walk "\t" x (.placing recorded.reads) n (Flow.entry x n {}).1 ∧
      Draft.Anchored "\t" past ∧ (Draft.ofEdits past).opener? level = some a ∧
      (Draft.ofEdits (past ++ [.hoist level texts])).pages a.page =
        ((Draft.ofEdits past).pages a.page).take a.index ++ (Draft.ofEdits past).stamp a.id texts ++
          ((Draft.ofEdits past).pages a.page).drop a.index ∧
      (Draft.ofEdits
        (EditLog.walk "\t" x (.placing recorded.reads) n (Flow.entry x n {}).1)).text 0 =
          code.render "\t" 1 := by
  have key : (Index.build .builtin rollNodes rollConnections).toOption.any (fun x =>
      (x.node? "spawn").any fun n =>
        (walk x .recording n (Flow.entry x n {}).1).toOption.any fun w =>
          (walk x (.placing w.2.reads) n (Flow.entry x n {}).1).toOption.isSome &&
            (EditLog.walk "\t" x (.placing w.2.reads) n (Flow.entry x n {}).1).any
              Edit.isHoist) = true := by
    rw [Index.build, Index.addNode_builtin]
    decide +kernel
  obtain ⟨x, hx, key⟩ := exists_ok_of_any key
  obtain ⟨n, hn, key⟩ := (Option.any_eq_true ..).mp key
  obtain ⟨⟨first, recorded⟩, hfirst, key⟩ := exists_ok_of_any key
  obtain ⟨hlast, hhoist⟩ := Bool.and_eq_true_iff.mp key
  obtain ⟨⟨code, last⟩, hlast⟩ := Option.isSome_iff_exists.mp hlast
  have hlast := ok_of_toOption hlast
  obtain ⟨ed, hmem, hed⟩ := List.any_eq_true.mp hhoist
  obtain ⟨level, texts, rfl⟩ := Edit.eq_hoist hed
  obtain ⟨past, future, hlog⟩ := List.append_of_mem hmem
  obtain ⟨hanchored, hfound, htext⟩ := anchors_hold "\t" x (.placing recorded.reads) n {}
  have hnow : past ++ [.hoist level texts] <+:
      EditLog.walk "\t" x (.placing recorded.reads) n (Flow.entry x n {}).1 :=
    ⟨future, by rw [hlog]; simp⟩
  obtain ⟨a, -, hopener, hpage⟩ := hfound past level texts hnow
  exact ⟨x, n, first, recorded, code, last, past, level, texts, a, hx, hn, hfirst, hlast, hnow,
    hanchored past ⟨_, hlog.symm⟩, hopener, hpage, (htext code last (walk_ok_iff.mp hlast).1).1⟩

end VisualScript
