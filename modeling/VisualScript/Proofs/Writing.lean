import VisualScript.Proofs.Growth
import VisualScript.Proofs.Layout

/-!
# Proofs — Writing

The shape of generated code.  Apart from declarations, a chain is written out as its flow lays it
out (`Chain.Written`, `writing`): the same nodes in the same blocks (`Chain.Written.visits`), and
blocks that differ where nodes do (`Chain.Written.keys`).
-/

namespace VisualScript

mutual

/-- The code is that of a chain: declarations in front of each node, and then its items. -/
inductive Chain.Written : Chain → Code → Prop where
  | done : Chain.Written .done .done
  | step {id : String} {own : Parts} {rest : Chain} {before code after : Code} (inputs : Inputs)
      (vars : List String) (hb : before.Flat) (hp : Parts.Written id own code)
      (hc : Chain.Written rest after) :
      Chain.Written (.step id own rest) (before ++ .mark id inputs vars (code ++ after))

/-- The code is that of the items of `owner`. -/
inductive Parts.Written : (owner : String) → Parts → Code → Prop where
  | done {owner : String} : Parts.Written owner .done .done
  | line {owner : String} {rest : Parts} {after : Code} (t : Template) (e : Expr)
      (h : Parts.Written owner rest after) : Parts.Written owner (.line t rest) (.line e after)
  | follow {owner : String} {body : Chain} {rest : Parts} {code after : Code}
      (hb : Chain.Written body code) (h : Parts.Written owner rest after) :
      Parts.Written owner (.follow body rest) (code ++ after)
  | block {owner : String} {body : Chain} {rest : Parts} {code after : Code} (port : String)
      (bindings : List (String × Nat)) (tail : List String) (hb : Chain.Written body code)
      (h : Parts.Written owner rest after) :
      Parts.Written owner (.block port bindings tail body rest)
        (.block ⟨owner, port⟩ (code ++ .ofLines tail) after)
  | named {owner : String} {body : Chain} {rest : Parts} {after : Code} (port name : String)
      (e : Expr) (h : Parts.Written owner rest after) :
      Parts.Written owner (.thread port name false body rest) (.line e after)
  | thread {owner : String} {isConnected : Bool} {body : Chain} {rest : Parts} {code after : Code}
      (port name : String) (captures : List String) (hb : Chain.Written body code)
      (h : Parts.Written owner rest after) :
      Parts.Written owner (.thread port name isConnected body rest)
        (.thread ⟨owner, port⟩ name captures code after)

end

/-! ### A pass writes the flow -/

namespace Walk

open Scopes

theorem bindOutputs_grow (n : PlacedNode) (outputs : List (String × Expr)) (s : State) :
    Grow s.scopes (bindOutputs n outputs s).scopes :=
  bindOutputs_induct (P := (Grow s.scopes ·.scopes)) (.refl _) fun _ _ _ _ _ ht => ht.bind _ _

/-- What has been set aside while the items of a node were rendered comes back. -/
theorem setHoisted_grow {s s' : State} (h : Grow (setHoisted s .done).scopes s'.scopes) :
    Grow s.scopes (setHoisted s' (hoisted s)).scopes ∧ (hoisted s').Flat := by
  unfold setHoisted hoisted at *
  cases hs : s.scopes with
  | nil =>
    rw [hs] at h
    cases h' : s'.scopes with
    | nil => exact ⟨.nil, trivial⟩
    | cons b ss' => rw [h'] at h; cases h
  | cons a ss =>
    rw [hs] at h
    cases h' : s'.scopes with
    | nil => rw [h'] at h; cases h
    | cons b ss' =>
      rw [h'] at h
      cases h with
      | cons hab ht =>
        obtain ⟨c, hc, he⟩ := hab.hoisted
        refine ⟨.cons ⟨hab.key, hab.isThread, hab.bindings, hab.captures, .done, trivial,
          by simp⟩ ht, ?_⟩
        simpa [he] using hc

theorem closeBlock_grow {n : PlacedNode} {key : BlockKey} {isThread : Bool}
    {bindings : List (String × Nat)} {vars : List String} {s s' : State}
    (h : Grow (openBlock n key isThread bindings vars s).scopes s'.scopes) :
    Grow s.scopes (closeBlock s').2.scopes := by
  have hopen : Grow ({ key := some key, isThread := isThread } :: s.scopes) s'.scopes :=
    (bindOutputs_grow n _ _).trans h
  unfold closeBlock
  cases hs : s'.scopes with
  | nil => rw [hs] at hopen; cases hopen
  | cons b ss' =>
    rw [hs] at hopen
    cases hopen with
    | cons _ ht => exact ht

@[simp] theorem hoisted_bindOutputs (n : PlacedNode) (outputs : List (String × Expr))
    (s : State) : hoisted (bindOutputs n outputs s) = hoisted s :=
  bindOutputs_induct (P := (hoisted · = hoisted s)) rfl fun _ _ _ _ _ ht =>
    (hoisted_bind _ _ _).trans ht

theorem hoisted_setHoisted {s s' : State} (h : Grow (setHoisted s .done).scopes s'.scopes) :
    hoisted (setHoisted s' (hoisted s)) = hoisted s := by
  unfold setHoisted hoisted at *
  cases hs : s.scopes with
  | nil =>
    rw [hs] at h
    cases h' : s'.scopes with
    | nil => rfl
    | cons b ss' => rw [h'] at h; cases h
  | cons a ss =>
    rw [hs] at h
    cases h' : s'.scopes with
    | nil => rw [h'] at h; cases h
    | cons b ss' => rfl

end Walk

/-- The scopes a pass finds open keep what is in them.  What a chain has waiting in its own block it
puts in front of its nodes. -/
theorem keeping (x : Index) (pass : Pass) :
    Walking x pass
      (fun _ s _ s' => Scopes.Grow s.scopes s'.scopes ∧ Walk.hoisted s' = Walk.hoisted s)
      (fun _ _ _ s _ s' => Scopes.Grow s.scopes s'.scopes) := by
  constructor
  case finish => exact ⟨.refl _, rfl⟩
  case step =>
    intro id own rest s n filling before s₁ code s₂ after s₃ hn henter _ _ hown hrest
    obtain ⟨r, s₁', em, s₂', -, hin, hem, -, rfl⟩ := Walk.enter_ok henter
    have hwait : Walk.hoisted s₃ = Walk.hoisted s := by
      rw [hrest.2, Walk.hoisted_setHoisted hown, Walk.hoisted_bindOutputs,
        ← (Evaluation.waiting x pass).inputs hin]
      simp only [Walk.hoisted, Evaluation.emit_scopes hem]
    have hgrow := ((Evaluation.growing x pass).inputs hin).1
    have hset := (Walk.setHoisted_grow hown).1
    have hbind := Walk.bindOutputs_grow n em.outputs s₂'
    rw [Evaluation.emit_scopes hem] at hbind
    exact ⟨((hgrow.trans hbind).trans hset).trans hrest.1, hwait⟩
  case nil => exact .refl _
  case line => exact fun h => h
  case follow => exact fun _ hb h => hb.1.trans h
  case block => exact fun _ _ hb h => (Walk.closeBlock_grow hb.1).trans h
  case named => exact fun _ h => h
  case thread => exact fun _ _ hb h => (Walk.closeBlock_grow hb.1).trans h

/-- Every pass writes the flow, and the scopes it finds open keep what is in them. -/
theorem writing (x : Index) (pass : Pass)
    (hid : ∀ {id n}, x.node? id = some n → n.node.id = id) :
    Walking x pass
      (fun c s code s' => (Scopes.Grow s.scopes s'.scopes ∧ Walk.hoisted s' = Walk.hoisted s) ∧
        c.Written code)
      (fun n _ own s code s' => Scopes.Grow s.scopes s'.scopes ∧ own.Written n.node.id code) := by
  constructor
  case finish => exact ⟨⟨.refl _, rfl⟩, .done⟩
  case step =>
    intro id own rest s n filling before s₁ code s₂ after s₃ hn henter hran hranRest hown hrest
    obtain ⟨r, s₁', em, s₂', -, hin, -, -, -⟩ := Walk.enter_ok henter
    have hflat := ((Evaluation.growing x pass).inputs hin).2
    have hfront := (Walk.setHoisted_grow hown.1).2
    refine ⟨(keeping x pass).step hn henter hran hranRest hown.1 hrest.1, ?_⟩
    exact .step _ _ (by simpa using ⟨hflat, hfront⟩) (hid hn ▸ hown.2) hrest.2
  case nil => exact ⟨.refl _, .done⟩
  case line => exact fun h => ⟨h.1, .line _ _ h.2⟩
  case follow => exact fun _ hb h => ⟨hb.1.1.trans h.1, .follow hb.2 h.2⟩
  case block =>
    exact fun _ _ hb h => ⟨(Walk.closeBlock_grow hb.1.1).trans h.1, .block _ _ _ hb.2 h.2⟩
  case named => exact fun _ h => ⟨h.1, .named _ _ _ h.2⟩
  case thread =>
    exact fun _ _ hb h => ⟨(Walk.closeBlock_grow hb.1.1).trans h.1, .thread _ _ _ hb.2 h.2⟩

/-- Where control only goes on from chain to chain, nothing is left waiting. -/
theorem Walk.hoisted_of_follows {x : Index} {pass : Pass} {n : PlacedNode} {filling : Filling}
    (hid : ∀ {id n}, x.node? id = some n → n.node.id = id) :
    ∀ {outputs : List Socket} {flow : Parts} {s s' : State} {code : Code},
      flow.Laid x (outputs.map fun s => .follow s.name) →
      Walk.parts x pass n filling flow s = .ok (code, s') → Walk.hoisted s' = Walk.hoisted s
  | [], _, s, s', code, .done, hw => by
    rw [Walk.parts] at hw
    cases hw
    rfl
  | _ :: outputs, .follow body rest, s, s', code, .follow _ _ hrest, hw => by
    rw [Walk.parts] at hw
    obtain ⟨⟨c, s₁⟩, h₁, hw⟩ := bind_eq_ok.mp hw
    obtain ⟨⟨after, s₂⟩, h₂, hw⟩ := bind_eq_ok.mp hw
    cases hw
    rw [hoisted_of_follows hid hrest h₂, ((writing x pass hid).chain body h₁).1.2]

/-! ### The nodes of the code -/

mutual

/-- The code has the nodes of the chain, in the same blocks. -/
theorem Chain.Written.visits {path : Path} : ∀ {c : Chain} {code : Code},
    c.Written code → c.Idle → code.visits path = c.visits path
  | _, _, .done, _ => rfl
  | _, _, .step _ _ hb hp hc, hi => by
    rw [Code.visits_append, hb.visits_eq, Code.visits, Code.visits_append, hp.visits hi.1,
      hc.visits hi.2]
    rfl

theorem Parts.Written.visits {path : Path} : ∀ {owner : String} {p : Parts} {code : Code},
    p.Written owner code → p.Idle → code.visits path = p.visits path owner
  | _, _, _, .done, _ => rfl
  | _, _, _, .line _ _ h, hi => h.visits hi
  | _, _, _, .follow hb h, hi => by
    rw [Code.visits_append, hb.visits hi.1, h.visits hi.2]
    rfl
  | _, _, _, .block _ _ _ hb h, hi => by
    rw [Code.visits, Code.visits_append, Code.visits_ofLines, List.append_nil, hb.visits hi.1,
      h.visits hi.2]
    rfl
  | _, _, _, .named _ _ _ h, hi => by
    rw [hi.1 rfl]
    exact h.visits hi.2.2
  | _, _, _, .thread _ _ _ hb h, hi => by
    rw [Code.visits, hb.visits hi.2.1, h.visits hi.2.2]
    rfl

end

/-! ### The blocks of the code -/

/-- A node, the nodes of one of its items and those of the items after it. -/
theorem nodup_split {owner : String} {as bs : List String} (h : (owner :: (as ++ bs)).Nodup) :
    owner ∉ as ∧ (owner :: bs).Nodup ∧ as.Nodup ∧ ∀ a ∈ as, a ∉ bs := by
  obtain ⟨ho, h⟩ := List.nodup_cons.mp h
  obtain ⟨ha, hb, hab⟩ := List.nodup_append.mp h
  exact ⟨fun hm => ho (List.mem_append_left _ hm),
    List.nodup_cons.mpr ⟨fun hm => ho (List.mem_append_right _ hm), hb⟩, ha,
    fun a hm hm' => hab a hm a hm' rfl⟩

/-- A block of a node, and the blocks of its later items. -/
theorem keys_cons {owner port : String} {ports as bs : List String} {keys : List BlockKey}
    (hport : port ∉ ports) (howner : owner ∉ bs)
    (hin : ∀ k ∈ keys, (k.node = owner ∧ k.port ∈ ports) ∨ k.node ∈ bs) (hnodup : keys.Nodup) :
    (∀ k ∈ (⟨owner, port⟩ : BlockKey) :: keys,
      (k.node = owner ∧ k.port ∈ port :: ports) ∨ k.node ∈ as ++ bs) ∧
      ((⟨owner, port⟩ : BlockKey) :: keys).Nodup := by
  refine ⟨fun k hk => ?_, List.nodup_cons.mpr ⟨fun hm => ?_, hnodup⟩⟩
  · rcases List.mem_cons.mp hk with rfl | hk
    · exact .inl ⟨rfl, .head _⟩
    · exact (hin k hk).imp (fun h => ⟨h.1, .tail _ h.2⟩) (List.mem_append_right _)
  · exact (hin _ hm).elim (fun h => hport h.2) howner

mutual

/-- The blocks at one level belong to nodes of the chain, and no two of them are the same. -/
theorem Chain.Written.keys {x : Index} : ∀ {c : Chain} {code : Code}, c.Written code →
    c.Laid x → c.nodes.Nodup → (∀ k ∈ code.keys, k.node ∈ c.nodes) ∧ code.keys.Nodup ∧
      code.Nested fun b => b.keys.Nodup
  | _, _, .done, _, _ => by simp [Code.keys, Code.Nested]
  | _, _, @Chain.Written.step id own rest before code after _ _ hb hp hc,
    @Chain.Laid.step _ _ n r _ _ _ _ _ _ hlp hlc, hnodup => by
    have hsplit : (id :: own.nodes).Nodup ∧ rest.nodes.Nodup ∧
        ∀ a ∈ id :: own.nodes, a ∉ rest.nodes := by
      have : ((id :: own.nodes) ++ rest.nodes).Nodup := hnodup
      obtain ⟨h₁, h₂, h₃⟩ := List.nodup_append.mp this
      exact ⟨h₁, h₂, fun a ha hr => h₃ a ha a hr rfl⟩
    have hports : ((Outline.splitTail (r.outline x n).items).1.filterMap
        Item.blockPort?).Nodup :=
      (Recipe.nodup_blockPorts x n r).sublist ((Flow.splitTail_sublist _).filterMap _)
    obtain ⟨hin₁, hk₁, hn₁⟩ := hp.keys hlp hsplit.1 hports
    obtain ⟨hin₂, hk₂, hn₂⟩ := hc.keys hlc hsplit.2.1
    have hin₁ : ∀ k ∈ code.keys, k.node ∈ id :: own.nodes := fun k hk =>
      (hin₁ k hk).elim (fun h => h.1 ▸ .head _) (.tail _)
    simp only [Code.keys_append, hb.keys_eq, Code.keys, List.nil_append, Code.nested_append,
      Code.Nested]
    refine ⟨fun k hk => ?_, ?_, hb.nested, hn₁, hn₂⟩
    · show k.node ∈ (id :: own.nodes) ++ rest.nodes
      exact (List.mem_append.mp hk).elim (fun h => List.mem_append_left _ (hin₁ k h))
        (fun h => List.mem_append_right _ (hin₂ k h))
    · refine List.nodup_append.mpr ⟨hk₁, hk₂, ?_⟩
      rintro k hk k' hk' rfl
      exact hsplit.2.2 _ (hin₁ k hk) (hin₂ k hk')

theorem Parts.Written.keys {x : Index} : ∀ {owner : String} {items : List Item} {p : Parts}
    {code : Code}, p.Written owner code → p.Laid x items → (owner :: p.nodes).Nodup →
      (items.filterMap Item.blockPort?).Nodup →
      (∀ k ∈ code.keys,
        (k.node = owner ∧ k.port ∈ items.filterMap Item.blockPort?) ∨ k.node ∈ p.nodes) ∧
        code.keys.Nodup ∧ code.Nested fun b => b.keys.Nodup
  | _, _, _, _, .done, _, _, _ => by simp [Code.keys, Code.Nested]
  | _, _, _, _, .line _ _ h, .line _ hl, hnodup, hports => by
    obtain ⟨hin, hk, hn⟩ := h.keys hl hnodup hports
    exact ⟨hin, hk, hn⟩
  | _, _, _, _, .named _ _ _ h, .thread _ _ hdone _ hl, hnodup, hports => by
    obtain rfl := hdone rfl
    obtain ⟨hin, hk, hn⟩ := h.keys hl hnodup (List.nodup_cons.mp hports).2
    exact ⟨fun k hm => (hin k hm).imp_left fun h => ⟨h.1, .tail _ h.2⟩, hk, hn⟩
  | _, _, _, _, .follow hb h, .follow _ hlb hl, hnodup, hports => by
    obtain ⟨ho, hrest, hbody, hdisj⟩ := nodup_split hnodup
    obtain ⟨hin₁, hk₁, hn₁⟩ := hb.keys hlb hbody
    obtain ⟨hin₂, hk₂, hn₂⟩ := h.keys hl hrest hports
    simp only [Code.keys_append, Code.nested_append]
    refine ⟨fun k hk => ?_, List.nodup_append.mpr ⟨hk₁, hk₂, ?_⟩, hn₁, hn₂⟩
    · rcases List.mem_append.mp hk with hk | hk
      · exact .inr (List.mem_append_left _ (hin₁ k hk))
      · exact (hin₂ k hk).imp_right (List.mem_append_right _)
    · rintro k hk k' hk' rfl
      rcases hin₂ k hk' with hk' | hk'
      · exact ho (hk'.1 ▸ hin₁ k hk)
      · exact hdisj _ (hin₁ k hk) hk'
  | _, _, _, _, .block port _ _ hb h, .block _ _ _ hlb hl, hnodup, hports => by
    obtain ⟨ho, hrest, hbody, -⟩ := nodup_split hnodup
    obtain ⟨hport, hports⟩ := List.nodup_cons.mp hports
    obtain ⟨-, hk₁, hn₁⟩ := hb.keys hlb hbody
    obtain ⟨hin₂, hk₂, hn₂⟩ := h.keys hl hrest hports
    obtain ⟨hin, hk⟩ := keys_cons hport (List.nodup_cons.mp hrest).1 hin₂ hk₂
    exact ⟨hin, hk, ⟨by simpa using hk₁, by simpa using hn₁⟩, hn₂⟩
  | _, _, _, _, .thread port _ _ hb h, .thread _ _ _ hlb hl, hnodup, hports => by
    obtain ⟨ho, hrest, hbody, -⟩ := nodup_split hnodup
    obtain ⟨hport, hports⟩ := List.nodup_cons.mp hports
    obtain ⟨-, hk₁, hn₁⟩ := hb.keys hlb hbody
    obtain ⟨hin₂, hk₂, hn₂⟩ := h.keys hl hrest hports
    obtain ⟨hin, hk⟩ := keys_cons hport (List.nodup_cons.mp hrest).1 hin₂ hk₂
    exact ⟨hin, hk, ⟨hk₁, hn₁⟩, hn₂⟩

end

end VisualScript
