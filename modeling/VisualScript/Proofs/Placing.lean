import VisualScript.Proofs.Paths
import VisualScript.Proofs.Recording

/-!
# Proofs — Placing

Where the placing pass declares temporaries.  A value is ready in a block (`Ready`) if the home of
each exec output it is made from, and for each temporary the innermost block around its recorded
reads, encloses the block.  Everything the pass reads is ready where it is read, also when it is
read for a temporary that is declared further out (`Recording.feeds_ready`).  Then the floor of a
placement never lies above the common block of the reads (`floor_le`), and every temporary is
declared in exactly that block (`placing_spec`).
-/

namespace VisualScript

open Evaluation

variable {B B' : Endpoint → Prop} {entry id : String} {m : PlacedNode} {l : Path} {slot : Endpoint}
  {D : Endpoint → Path → Prop} {s : State}

/-! ### What a successful evaluation can count on -/

/-- The value can be made from the slots `B`, through nodes without exec ports. -/
inductive Resolvable (x : Index) (B : Endpoint → Prop) : Endpoint → Prop where
  | bound {e : Endpoint} (h : B e) : Resolvable x B e
  | data {e : Endpoint} {n : PlacedNode} (node : x.node? e.node = some n) (data : n.hasExec = false)
      (sources : ∀ e', Feeds x n e' → Resolvable x B e') : Resolvable x B e

theorem Resolvable.trans {x : Index} {e : Endpoint} (h : Resolvable x B e)
    (hB : ∀ e, B e → Resolvable x B' e) : Resolvable x B' e := by
  induction h with
  | bound h => exact hB _ h
  | data hn hx _ ih => exact .data hn hx ih

theorem Resolvable.mono {x : Index} {e : Endpoint} (h : Resolvable x B e) (hB : ∀ e, B e → B' e) :
    Resolvable x B' e :=
  h.trans fun e he => .bound (hB e he)

namespace Scopes

theorem binds_modifyTop {f : Scope → Scope} {ss : Scopes} {slot : Endpoint}
    (h : Binds (modifyTop f ss) slot)
    (hf : ∀ sc value, (slot, value) ∈ (f sc).bindings → (slot, value) ∈ sc.bindings) :
    Binds ss slot := by
  cases ss with
  | nil => exact h
  | cons sc ss =>
    obtain ⟨sc', hm, value, hb⟩ := h
    rcases List.mem_cons.mp hm with rfl | hm
    · exact ⟨sc, .head _, value, hf sc value hb⟩
    · exact ⟨sc', .tail _ hm, value, hb⟩

theorem binds_bind {ss : Scopes} {slot e : Endpoint} {value : Expr}
    (h : Binds (bind e value ss) slot) : slot = e ∨ Binds ss slot := by
  by_cases he : slot = e
  · exact .inl he
  · refine .inr (binds_modifyTop h fun sc value' hm => ?_)
    rcases List.mem_cons.mp hm with hm | hm
    · cases hm
      exact absurd rfl he
    · exact hm

theorem binds_take_append {ss ts : Scopes} {hidden : Nat} {slot : Endpoint}
    (h : Binds (ss.take hidden ++ ts) slot) : Binds ss slot ∨ Binds ts slot := by
  obtain ⟨sc, hm, hb⟩ := h
  rcases List.mem_append.mp hm with hm | hm
  · exact .inl ⟨sc, List.mem_of_mem_take hm, hb⟩
  · exact .inr ⟨sc, hm, hb⟩

end Scopes

namespace Evaluation

open Scopes

/-- Declaring the temporaries of a node binds slots of the node only. -/
theorem binds_declare {n : PlacedNode} {slot : Endpoint} {outputs : List (String × Expr)}
    {s : State} :
    Binds (declare n outputs s).2.scopes slot → slot.node = n.node.id ∨ Binds s.scopes slot :=
  declare_induct (P := fun t => Binds t.scopes slot → slot.node = n.node.id ∨ Binds s.scopes slot)
    .inr fun _ _ _ _ _ _ ht h => (binds_bind h).elim (fun hs => .inl (congrArg _ hs)) ht

theorem binds_fetch {s : State} {e slot : Endpoint} :
    Binds (s.fetch e).2.scopes slot ↔ Binds s.scopes slot :=
  binds_sameAs (s.fetch_sameAs e)

theorem binds_raise {s t : State} {hidden : Nat} {code : Code} {slot : Endpoint}
    (h : Binds (s.raise hidden code t).2.scopes slot) :
    Binds s.scopes slot ∨ Binds t.scopes slot := by
  unfold State.raise at h
  split at h
  · exact .inr h
  · rcases binds_take_append h with h | h
    · exact .inl h
    · exact .inr (binds_modifyTop h fun _ _ hb => hb)

/-- A value that is read could be made from what was bound before, and so could every value that is
bound on the way. -/
theorem resolving (x : Index) (pass : Pass)
    (hid : ∀ {id n}, x.node? id = some n → n.node.id = id) :
    Fetching x pass
      (fun _ e s _ _ s' => Resolvable x (Binds s.scopes) e ∧
        ∀ slot, Binds s'.scopes slot → Resolvable x (Binds s.scopes) slot)
      (fun _ n ts _ s _ _ s' =>
        (∀ t ∈ ts, t.kind = .data → ∀ e, source? x n t = some e →
          Resolvable x (Binds s.scopes) e) ∧
        ∀ slot, Binds s'.scopes slot → Resolvable x (Binds s.scopes) slot) := by
  constructor
  case bound =>
    intro pending e s n value ss hn hl
    have hsame := lookup?_sameAs hl
    rw [note_scopes] at hl hsame
    exact ⟨.bound (binds_of_lookup? hl), fun slot h => .bound ((binds_sameAs hsame).mp h)⟩
  case inline =>
    intro pending e s n r inputs code s₁ em s₂ value hn _ hx _ _ _ _ hI hem _
    obtain ⟨-, rfl, -, -⟩ := emit_ok hem
    simp only [note_scopes] at hI
    exact ⟨.data hn hx fun e' ⟨t, ht, hk, he⟩ => hI.1 t ht hk e' he, hI.2⟩
  case temporary =>
    intro pending e s n r hidden inputs code s₁ em s₂ value hn _ hx _ _ _ _ _ hI hem _
    obtain ⟨-, hcount, -, -⟩ := emit_ok hem
    have hlow : ∀ slot, Resolvable x (Binds ((note x pass n s).lower hidden).scopes) slot →
        Resolvable x (Binds s.scopes) slot := fun slot h =>
      h.mono fun e he => by simpa using he.of_drop
    have hdata : ∀ slot : Endpoint, slot.node = e.node → Resolvable x (Binds s.scopes) slot :=
      fun slot hs => .data (hs ▸ hn) hx fun e' ⟨t, ht, hk, he⟩ => hlow e' (hI.1 t ht hk e' he)
    refine ⟨hdata e rfl, fun slot h => ?_⟩
    rcases binds_raise (binds_fetch.mp h) with h | h
    · exact .bound (by simpa using h)
    · rcases binds_declare h with h | h
      · exact hdata slot (h.trans (hid hn))
      · rw [hcount] at h
        exact hlow slot (hI.2 slot h)
  case nil => exact ⟨by simp, fun slot h => .bound h⟩
  case skip =>
    intro pending n t ts inputs s inputs' code s' hk hI
    refine ⟨fun t' ht' hk' => ?_, hI.2⟩
    rcases List.mem_cons.mp ht' with rfl | ht'
    · exact absurd hk' hk
    · exact hI.1 t' ht' hk'
  case connected =>
    intro pending n t ts inputs s e value code s₁ inputs' more s₂ hk he hR _ hI
    refine ⟨fun t' ht' hk' e' he' => ?_, fun slot h => (hI.2 slot h).trans hR.2⟩
    rcases List.mem_cons.mp ht' with rfl | ht'
    · rw [he] at he'
      cases he'
      exact hR.1
    · exact (hI.1 t' ht' hk' e' he').trans hR.2
  case literal =>
    intro pending n t ts inputs s value inputs' code s' hk he _ hI
    refine ⟨fun t' ht' hk' e' he' => ?_, hI.2⟩
    rcases List.mem_cons.mp ht' with rfl | ht'
    · rw [he] at he'
      cases he'
    · exact hI.1 t' ht' hk' e' he'

end Evaluation

/-! ### Readiness -/

/-- The recorded reads of a flow, as the placing pass relies on them. -/
structure Recording (x : Index) (n : PlacedNode) (flow : Parts) (reads : List (String × Path)) :
    Prop where
  node_id   : ∀ {id n}, x.node? id = some n → n.node.id = id
  entry     : x.node? n.node.id = some n
  exec      : n.hasExec = true
  nodup     : (n.node.id :: flow.nodes).Nodup
  evaluated : ∀ id q, (id, q) ∈ reads → Recorded.Evaluated x n.node.id flow reads id q
  visited   : ∀ q id, (q, id) ∈ flow.visits [] n.node.id → ∀ m, x.node? id = some m →
    ∀ e, Feeds x m e → Recorded x n.node.id flow reads q e

/-- The innermost block around the recorded reads of a node. -/
abbrev Shared (reads : List (String × Path)) (id : String) (l : Path) : Prop :=
  Innermost (fun q => (id, q) ∈ reads) l

/-- The value can be had in the block `p` when every temporary is declared in the innermost block
around its recorded reads. -/
abbrev Ready (x : Index) (entry : String) (flow : Parts) (reads : List (String × Path)) (p : Path)
    (e : Endpoint) : Prop :=
  Available x (fun id q => ∃ l, Shared reads id l ∧ l <+: q) (Reached x entry flow) p e

variable {x : Index} {n : PlacedNode} {flow : Parts} {reads : List (String × Path)} {p q : Path}
  {e : Endpoint}

theorem Ready.of_recorded (h : Recorded x entry flow reads p e) : Ready x entry flow reads p e :=
  h.mono (fun id (hm : (id, p) ∈ reads) =>
    let ⟨l, hl⟩ := Innermost.exists_of_nonempty (S := fun q => (id, q) ∈ reads) hm
    ⟨l, hl, hl.1 p hm⟩) fun _ h => h

theorem Ready.extend (h : Ready x entry flow reads p e) (hpq : p <+: q) :
    Ready x entry flow reads q e :=
  h.mono (fun _ ⟨l, hl, hp⟩ => ⟨l, hl, hp.trans hpq⟩) fun _ ⟨l, hl, hp⟩ => ⟨l, hl, hp.trans hpq⟩

/-- What a temporary is made from is ready in the innermost block around its reads. -/
theorem Recording.feeds_ready (h : Recording x n flow reads) (hl : Shared reads id l)
    (hm : x.node? id = some m) (hf : Feeds x m e) (hread : (id, p) ∈ reads) :
    Ready x n.node.id flow reads l e := by
  refine Available.around (S := fun q => (id, q) ∈ reads) ?_ ?_ hread fun q hq => ?_
  · intro a ha
    obtain ⟨l', hl', hp'⟩ := ha p hread
    refine ⟨l', hl', hl.2 l' fun q hq => ?_⟩
    obtain ⟨l'', hl'', hp''⟩ := ha q hq
    exact hl'.unique hl'' ▸ hp''
  · intro e' he'
    obtain ⟨h', hh', hp'⟩ := he' p hread
    refine ⟨h', hh', hl.2 h' fun q hq => ?_⟩
    obtain ⟨h'', hh'', hp''⟩ := he' q hq
    exact hh'.unique h.nodup hh'' ▸ hp''
  · obtain ⟨q', hq', -, hfeeds⟩ := (h.evaluated id q hq).around
    exact (Ready.of_recorded (hfeeds m hm e hf)).extend hq'

/-! ### The level of a placement -/

/-- Where the placing pass binds a slot: the output of an exec node at its home, a temporary in the
innermost block around its reads. -/
structure Placed.Bound (x : Index) (entry : String) (flow : Parts) (reads : List (String × Path))
    (slot : Endpoint) (q : Path) : Prop where
  exec : ∀ {n}, x.node? slot.node = some n → n.hasExec = true → Home x entry flow slot q
  data : ∀ {n}, x.node? slot.node = some n → n.hasExec = false →
    isInlined x n = false ∧ Shared reads slot.node q

/-- A slot that is bound and ready in a block is bound around it. -/
theorem Recording.bound_encloses (h : Recording x n flow reads)
    (hb : Placed.Bound x n.node.id flow reads slot q) (hr : Ready x n.node.id flow reads p slot)
    (hm : x.node? slot.node = some m) : q <+: p := by
  rcases Bool.eq_false_or_eq_true m.hasExec with hx | hx
  · obtain ⟨q', hq', hp⟩ := hr.of_exec hm hx
    exact (hb.exec hm hx).unique h.nodup hq' ▸ hp
  · obtain ⟨hi, hl⟩ := hb.data hm hx
    obtain ⟨l, hl', hp⟩ := hr.of_temporary hm hx hi
    exact hl.unique hl' ▸ hp

theorem Available.node {T : String → Path → Prop} {E : Endpoint → Path → Prop}
    (h : Available x T E p e) : ∃ m, x.node? e.node = some m := by
  cases h with
  | exec hn | temporary hn | inline hn => exact ⟨_, hn⟩

/-- What a ready node is made from is ready as well. -/
theorem Recording.ready_feeds (h : Recording x n flow reads) {e' : Endpoint}
    (hr : Ready x n.node.id flow reads p e) (hm : x.node? e.node = some m)
    (hx : m.hasExec = false) (hf : Feeds x m e') : Ready x n.node.id flow reads p e' := by
  rcases Bool.eq_false_or_eq_true (isInlined x m) with hi | hi
  · exact hr.of_inline hm hx hi hf
  · obtain ⟨l, hl, hp⟩ := hr.of_temporary hm hx hi
    obtain ⟨q, hq⟩ : ∃ q, (e.node, q) ∈ reads := by
      by_contra hnone
      -- the innermost block around no reads at all would enclose every block
      have := hl.2 (l ++ [⟨"", ""⟩]) fun q hq => absurd ⟨q, hq⟩ hnone
      exact Code.not_nested_in_self this
    exact (h.feeds_ready hl hm hf hq).extend hp

/-- The floor of a placement is no deeper than a block in which the sources of the node are
ready. -/
theorem Recording.floor_le (h : Recording x n flow reads) {ss : Scopes} (hs : Scopes.Shaped ss)
    (hall : Scopes.All (Scope.Homed (Placed.Bound x n.node.id flow reads) D) ss) :
    ∀ (fuel : Nat) (id : String) (seen : List String),
      (∀ m, x.node? id = some m → ∀ e, Feeds x m e →
        Ready x n.node.id flow reads l e ∧ Resolvable x (Scopes.Binds ss) e) →
      (floor x ss fuel id seen).1 ≤ l.length := by
  intro fuel
  induction fuel with
  | zero => exact fun _ _ _ => Nat.zero_le _
  | succ fuel ih =>
    intro id seen hid
    rw [floor]
    split
    · exact Nat.zero_le _
    split
    · exact Nat.zero_le _
    rename_i m hm
    have hsources : ∀ e ∈ (m.definition.inputs.filter (·.kind == .data)).filterMap (source? x m),
        Ready x n.node.id flow reads l e ∧ Resolvable x (Scopes.Binds ss) e := by
      intro e he
      obtain ⟨t, ht, hsrc⟩ := List.mem_filterMap.mp he
      obtain ⟨ht, hk⟩ := List.mem_filter.mp ht
      exact hid m hm e ⟨t, ht, by simpa using hk, hsrc⟩
    -- one source after the other keeps the level below
    generalize (m.definition.inputs.filter (·.kind == .data)).filterMap (source? x m) = es
      at hsources
    have hstart : ((0, id :: seen) : Nat × List String).1 ≤ l.length := Nat.zero_le _
    generalize ((0, id :: seen) : Nat × List String) = start at hstart
    induction es generalizing start with
    | nil => exact hstart
    | cons e es ihes =>
      rw [List.foldl_cons]
      refine ihes (fun e' he' => hsources e' (.tail _ he')) _ ?_
      obtain ⟨hready, hres⟩ := hsources e (.head _)
      dsimp only
      split
      · rename_i found hfound
        obtain ⟨q, sc, -, rfl, hsc, value, hb⟩ := hall.of_level? hs hfound
        obtain ⟨m', hm'⟩ := hready.node
        exact Nat.max_le.mpr ⟨hstart, (h.bound_encloses (hsc.bound e value hb) hready hm').length_le⟩
      · rename_i hnone
        -- a source that is not bound yet has no exec ports, or the evaluation would fail
        cases hres with
        | bound hb => exact absurd hb (Scopes.not_binds_of_level? hnone)
        | data hm' hx hfeeds =>
          rw [Index.hasExec_eq hm', hx]
          refine Nat.max_le.mpr ⟨hstart, ih e.node start.2 fun m'' hm'' e' hf => ?_⟩
          rw [hm'] at hm''
          cases hm''
          exact ⟨h.ready_feeds hready hm' hx hf, hfeeds e' hf⟩

/-- A temporary that is ready is placed in the innermost block around its reads. -/
theorem Recording.placement_eq (h : Recording x n flow reads)
    (hs : s.Homed (Placed.Bound x n.node.id flow reads) D p) (hl : Shared reads id l)
    (hp : l <+: p)
    (hsources : ∀ m, x.node? id = some m → ∀ e, Feeds x m e →
      Ready x n.node.id flow reads l e ∧ Resolvable x (Scopes.Binds s.scopes) e) :
    placement x (.placing reads) s.scopes id = l.length := by
  have hfloor := h.floor_le hs.shaped hs.scopes (x.placed.length + 1) id [] hsources
  have htop : l.length ≤ Scopes.top s.scopes := by
    rw [← hs.shaped.length_path, hs.path]
    exact hp.length_le
  rw [placement, hs.path, common_eq hl hp]
  omega

/-! ### The placing pass -/

/-- The slot is the output that its node hands on. -/
def Product (x : Index) (slot : Endpoint) : Prop :=
  ∃ n r name out p, x.node? slot.node = some n ∧ Recipe.ofType? n.node.nodeType = some r ∧
    (r.outline x n).outputs = [(name, out)] ∧ n.output? name = some p ∧ p.id = slot.port

theorem Product.unique {slot slot' : Endpoint} (h : Product x slot) (h' : Product x slot')
    (he : slot.node = slot'.node) : slot = slot' := by
  obtain ⟨n, r, name, out, p, hn, hr, ho, hp, hs⟩ := h
  obtain ⟨n', r', name', out', p', hn', hr', ho', hp', hs'⟩ := h'
  obtain ⟨node, port⟩ := slot
  obtain ⟨node', port'⟩ := slot'
  obtain rfl : node = node' := he
  obtain rfl := Option.some.inj (hn.symm.trans hn')
  obtain rfl := Option.some.inj (hr.symm.trans hr')
  obtain ⟨rfl, rfl⟩ : name = name' ∧ out = out' := by simpa using ho.symm.trans ho'
  obtain rfl := Option.some.inj (hp.symm.trans hp')
  exact congrArg (Endpoint.mk node) (hs.symm.trans hs')

/-- The outputs that are handed on have a slot each. -/
theorem product_of_mem {r : Recipe} {inputs : Inputs} {s s' : State} {em : Emission}
    (hid : ∀ {id n}, x.node? id = some n → n.node.id = id) (hn : x.node? e.node = some n)
    (hr : Recipe.ofType? n.node.nodeType = some r)
    (hem : emit (r.outline x n) inputs s = .ok (em, s')) {name : String} {value : Expr}
    {port : Port} (hm : (name, value) ∈ em.outputs) (hp : n.output? name = some port) :
    Product x ⟨n.node.id, port.id⟩ := by
  obtain ⟨-, -, hout, -⟩ := emit_ok hem
  have hnames := outputs_fst hout
  have hname : name ∈ (r.outline x n).outputs.map Prod.fst := by
    rw [← hnames]
    exact List.mem_map.mpr ⟨_, hm, rfl⟩
  have hlen := Recipe.outputs_length_le x n r
  match ho : (r.outline x n).outputs, hname, hlen with
  | [(name', out)], hname, _ =>
    obtain rfl : name = name' := by simpa using hname
    exact ⟨n, r, name, out, port, (hid hn).symm ▸ hn, hr, ho, hp, rfl⟩

/-- Where the placing pass declares a temporary. -/
def Placed.Declared (x : Index) (reads : List (String × Path)) (slot : Endpoint) (q : Path) : Prop :=
  Shared reads slot.node q ∧ Product x slot

/-- The placing pass, read by read. -/
theorem Recording.placing (h : Recording x n flow reads) :
    Fetching x (.placing reads)
      (fun _ e s _ code s' => ∀ p, Ready x n.node.id flow reads p e →
        s.Homed (Placed.Bound x n.node.id flow reads) (Placed.Declared x reads) p →
          s'.Homed (Placed.Bound x n.node.id flow reads) (Placed.Declared x reads) p ∧
            code.Declares (Placed.Declared x reads) p)
      (fun _ m ts _ s _ code s' =>
        ∀ p, (∀ t ∈ ts, t.kind = .data → ∀ e, source? x m t = some e →
            Ready x n.node.id flow reads p e) →
          s.Homed (Placed.Bound x n.node.id flow reads) (Placed.Declared x reads) p →
          s'.Homed (Placed.Bound x n.node.id flow reads) (Placed.Declared x reads) p ∧
            code.Declares (Placed.Declared x reads) p) := by
  constructor
  case bound =>
    intro pending e s m value ss hm hl p _ hs
    exact ⟨hs.sameAs (Scopes.lookup?_sameAs hl), by simp⟩
  case inline =>
    intro pending e s m r inputs code s₁ em s₂ value hm _ hx _ hi _ _ hI hem _ p he hs
    obtain ⟨-, rfl, -, -⟩ := emit_ok hem
    obtain ⟨hs₁, hc⟩ := hI p
      (fun t ht hk e' he' => he.of_inline hm hx hi ⟨t, ht, hk, he'⟩) hs
    exact ⟨hs₁.of_scopes rfl, hc⟩
  case temporary =>
    intro pending e s m r hidden inputs code s₁ em s₂ value hm _ hx _ hi hr hhidden hran hI hem _
      made placed p he hs
    obtain ⟨l, hshared, hlp⟩ := he.of_temporary hm hx hi
    have hfeeds : ∀ m', x.node? e.node = some m' → ∀ e', Feeds x m' e' →
        Ready x n.node.id flow reads l e' := by
      intro m' hm' e' hf
      exact h.ready_feeds (.temporary hm hx hi ⟨l, hshared, List.prefix_rfl⟩) hm
        hx (Option.some.inj (hm.symm.trans hm') ▸ hf)
    have hlevel := h.placement_eq hs hshared hlp fun m' hm' e' hf => by
      refine ⟨hfeeds m' hm' e' hf, ?_⟩
      obtain rfl := Option.some.inj (hm.symm.trans hm')
      obtain ⟨t, ht, hk, he'⟩ := hf
      have hres := ((resolving x (.placing reads) h.node_id).resolved hran).1
      exact (hres t ht hk e' he').mono fun _ hb => hb.of_drop
    -- with the scopes above it hidden, the innermost block around the reads is the current one
    have htop : l.length ≤ Scopes.top s.scopes := by
      rw [← hs.shaped.length_path, hs.path]
      exact hlp.length_le
    obtain rfl : hidden = Scopes.top s.scopes - l.length := by rw [hhidden, note_scopes, hlevel]
    have hle : Scopes.top s.scopes - l.length ≤ Scopes.top s.scopes := Nat.sub_le _ _
    have hpath : l = p.take (Scopes.top s.scopes - (Scopes.top s.scopes - l.length)) := by
      rw [Nat.sub_sub_self htop]
      exact List.prefix_iff_eq_take.mp hlp
    obtain ⟨hs₁, hc⟩ := hI l (fun t ht hk e' he' => hfeeds m hm e' ⟨t, ht, hk, he'⟩)
      (by have := hs.lower hle; rwa [← hpath] at this)
    obtain ⟨-, hcount, -, -⟩ := emit_ok hem
    have hs₂ : s₂.Homed (Placed.Bound x n.node.id flow reads) (Placed.Declared x reads) l :=
      hs₁.of_scopes (by rw [hcount])
    have hslot : ∀ port : String, Placed.Bound x n.node.id flow reads ⟨m.node.id, port⟩ l ∧
        Shared reads m.node.id l := by
      intro port
      rw [h.node_id hm]
      refine ⟨⟨fun hm' hx' => ?_, fun hm' _ => ?_⟩, hshared⟩ <;> rw [hm] at hm' <;> cases hm'
      · simp [hx] at hx'
      · exact ⟨hi, hshared⟩
    obtain ⟨hs₃, hd⟩ := hs₂.declare fun name v port hmem hport =>
      ⟨(hslot port.id).1, (hslot port.id).2, product_of_mem h.node_id hm hr hem hmem hport⟩
    obtain ⟨hs₄, hcode⟩ := hs.raise hle hpath hs₃ (Code.declares_append.mpr ⟨hc, hd⟩)
    exact ⟨hs₄.fetch e, hcode⟩
  case nil => exact fun p _ hs => ⟨hs, by simp⟩
  case skip =>
    intro pending m t ts inputs s inputs' code s' hk hI p hr hs
    exact hI p (fun t' ht' => hr t' (.tail _ ht')) hs
  case connected =>
    intro pending m t ts inputs s e value code s₁ inputs' more s₂ hk he hR _ hI p hr hs
    obtain ⟨hs₁, hc₁⟩ := hR p (hr t (.head _) hk e he) hs
    obtain ⟨hs₂, hc₂⟩ := hI p (fun t' ht' => hr t' (.tail _ ht')) hs₁
    exact ⟨hs₂, Code.declares_append.mpr ⟨hc₁, hc₂⟩⟩
  case literal =>
    intro pending m t ts inputs s value inputs' code s' hk he hlit hI p hr hs
    exact hI p (fun t' ht' => hr t' (.tail _ ht')) hs

/-- The placing pass, node by node. -/
theorem Recording.placing_keeping (h : Recording x n flow reads) :
    Keeping x (.placing reads) (Placed.Bound x n.node.id flow reads) (Placed.Declared x reads)
      (fun _ _ => True) (fun _ => True) (fun p id => (p, id) ∈ flow.visits [] n.node.id)
      (fun _ _ => True) := by
  have hexec : ∀ {id m q} {port : String}, x.node? id = some m → m.hasExec = true →
      Home x n.node.id flow ⟨id, port⟩ q → Placed.Bound x n.node.id flow reads ⟨id, port⟩ q := by
    intro id m q port hm hx hq
    refine ⟨fun _ _ => hq, fun hm' hx' => ?_⟩
    rw [hm] at hm'
    cases hm'
    simp [hx] at hx'
  constructor
  case node_id => exact h.node_id
  case final => exact fun _ _ => trivial
  case inputs =>
    intro p m s values code s' hv hm hin _ hs
    obtain ⟨hs', hc⟩ := h.placing.inputs hin p
      (fun t ht hk e he => .of_recorded (h.visited p _ hv m hm e ⟨t, ht, hk, he⟩)) hs
    exact ⟨hs', hc, fun _ _ _ => .inr trivial, trivial⟩
  case outer =>
    intro p id m r hv hm hx hr hb port
    refine hexec hm hx ?_
    simpa [hb] using home_of_visit hv hm hr port
  case inner =>
    intro p id m r hv hm hx hr hb port
    refine hexec hm hx ?_
    simpa [hb] using home_of_visit hv hm hr port

/-- **Where temporaries are declared**: in the innermost block around the recorded reads. -/
theorem Recording.placing_spec (h : Recording x n flow reads)
    (hlaid : flow.Laid x (Flow.entryItems n)) {body : Code}
    (hw : EntryFunction.walkFlow x (.placing reads) n flow = .ok (body, s)) :
    body.Declares (Placed.Declared x reads) [] := by
  refine (h.placing_keeping.entry hw hlaid trivial (fun _ _ hv => hv) fun port => ?_).1
  refine ⟨fun _ _ => .inl ⟨rfl, rfl⟩, fun hm hx => ?_⟩
  rw [h.entry] at hm
  cases hm
  simp [h.exec] at hx

end VisualScript
