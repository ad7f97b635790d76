import VisualScript.Proofs.Availability

/-!
# Proofs — Recording

What the recording pass finds out (`recording_spec`).  At its end the recorded reads know every block
in which a node of the flow needs a value; and for every recorded read of a node there is a block
around it in which the node was evaluated, so that what the node is made from is available there.
-/

namespace VisualScript

open Evaluation

namespace Evaluation

theorem note_of_temporary {x : Index} {n : PlacedNode} (s : State) (hx : n.hasExec = false)
    (hi : isInlined x n = false) :
    note x .recording n s =
      { s with reads := s.reads ++ [(n.node.id, Scopes.path s.scopes)] } := by
  simp [note, hx, hi]

theorem note_of_not_temporary {x : Index} {n : PlacedNode} (s : State)
    (h : n.hasExec = true ∨ isInlined x n = true) : note x .recording n s = s := by
  rcases h with h | h <;> simp [note, h]

end Evaluation

section

variable (x : Index) (entry : String) (flow : Parts) (reads : List (String × Path))

/-- The value can be had in the block `p` by what has been recorded. -/
abbrev Recorded (p : Path) (e : Endpoint) : Prop :=
  Available x (fun id q => (id, q) ∈ reads) (Reached x entry flow) p e

/-- Where the recording pass binds a slot: the output of an exec node at its home, a temporary where
it is read. -/
structure Recorded.Bound (slot : Endpoint) (q : Path) : Prop where
  exec : ∀ {n}, x.node? slot.node = some n → n.hasExec = true → Home x entry flow slot q
  data : ∀ {n}, x.node? slot.node = some n → n.hasExec = false →
    isInlined x n = false ∧ (slot.node, q) ∈ reads ∧
      ∀ e, Feeds x n e → Recorded x entry flow reads q e

/-- A node that is read in a block is evaluated in a block around it. -/
structure Recorded.Evaluated (id : String) (q : Path) : Prop where
  demanded : ∃ port, Demanded x flow ⟨id, port⟩
  around : ∃ q', q' <+: q ∧ (id, q') ∈ reads ∧
    ∀ n, x.node? id = some n → ∀ e, Feeds x n e → Recorded x entry flow reads q' e

/-- A step of the pass: what is asked of the recorded reads goes back to the beginning, and if `pre`
holds, slots stay where they belong, nodes that are read are evaluated, and `post` holds of the
current block. -/
def Recorded.Step (pre : Prop) (s s' : State) (post : Path → Prop) : Prop :=
  (∀ r ∈ s'.reads, r ∈ reads) → (∀ r ∈ s.reads, r ∈ reads) ∧
    ∀ p, pre → s.Homed (Recorded.Bound x entry flow reads) (fun _ _ => True) p →
      s'.Homed (Recorded.Bound x entry flow reads) (fun _ _ => True) p ∧
        Noted (Recorded.Evaluated x entry flow reads) s.reads s'.reads ∧ post p

variable {x entry flow reads}

namespace Recorded.Step

theorem imp {pre pre' : Prop} {s s' : State} {post post' : Path → Prop}
    (h : Recorded.Step x entry flow reads pre s s' post) (hpre : pre' → pre)
    (hpost : ∀ p, pre' → post p → post' p) : Recorded.Step x entry flow reads pre' s s' post' :=
  fun hF => ⟨(h hF).1, fun p hp hs =>
    let ⟨h₁, h₂, h₃⟩ := (h hF).2 p (hpre hp) hs
    ⟨h₁, h₂, hpost p hp h₃⟩⟩

theorem trans {pre : Prop} {s s₁ s₂ : State} {post₁ post₂ : Path → Prop}
    (h₁ : Recorded.Step x entry flow reads pre s s₁ post₁)
    (h₂ : Recorded.Step x entry flow reads pre s₁ s₂ post₂) :
    Recorded.Step x entry flow reads pre s s₂ (fun p => post₁ p ∧ post₂ p) := by
  intro hF
  obtain ⟨hF, h₂⟩ := h₂ hF
  obtain ⟨hF, h₁⟩ := h₁ hF
  refine ⟨hF, fun p hp hs => ?_⟩
  obtain ⟨hs₁, hN₁, hp₁⟩ := h₁ p hp hs
  obtain ⟨hs₂, hN₂, hp₂⟩ := h₂ p hp hs₁
  exact ⟨hs₂, hN₁.trans hN₂, hp₁, hp₂⟩

end Recorded.Step

variable (entry flow reads) in
/-- The recording pass, read by read. -/
theorem recording (hid : ∀ {id n}, x.node? id = some n → n.node.id = id) :
    Fetching x .recording
      (fun _ e s _ _ s' => Recorded.Step x entry flow reads (Demanded x flow e) s s'
        fun p => Recorded x entry flow reads p e)
      (fun _ n ts _ s _ _ s' => Recorded.Step x entry flow reads
        (∀ t ∈ ts, t.kind = .data → ∀ e, source? x n t = some e → Demanded x flow e) s s'
        fun p => ∀ t ∈ ts, t.kind = .data → ∀ e, source? x n t = some e →
          Recorded x entry flow reads p e) := by
  constructor
  case bound =>
    intro pending e s n value ss hn hl hF
    have hsame := Scopes.lookup?_sameAs hl
    rw [note_scopes] at hl hsame
    by_cases htemp : n.hasExec = false ∧ isInlined x n = false
    · obtain ⟨hx, hi⟩ := htemp
      rw [note_of_temporary s hx hi] at hF ⊢
      refine ⟨fun r hr => hF r (List.mem_append_left _ hr), fun p hd hs => ?_⟩
      obtain ⟨q, sc, hq, hsc, hb⟩ := hs.scopes.of_lookup? hl
      obtain ⟨-, hread, hfeeds⟩ := (hsc.bound e value hb).data hn hx
      rw [hs.path] at hq
      refine ⟨hs.sameAs hsame, fun id q' hm => ?_, .temporary hn hx hi (hF _ ?_)⟩
      · rcases List.mem_append.mp hm with hm | hm
        · exact .inl hm
        · obtain ⟨rfl, rfl⟩ : id = n.node.id ∧ q' = Scopes.path s.scopes := by simpa using hm
          rw [hid hn, hs.path]
          refine .inr ⟨⟨e.port, hd⟩, q, hq, hread, fun n' hn' => ?_⟩
          rw [hn] at hn'
          cases hn'
          exact hfeeds
      · rw [hid hn, hs.path]
        exact List.mem_append_right _ (.head _)
    · have hnot : n.hasExec = true ∨ isInlined x n = true := by
        rcases Bool.eq_false_or_eq_true n.hasExec with h | h
        · exact .inl h
        · exact .inr (by simpa [h] using htemp)
      rw [note_of_not_temporary s hnot] at hF ⊢
      refine ⟨hF, fun p hd hs => ⟨hs.sameAs hsame, .refl _, ?_⟩⟩
      obtain ⟨q, sc, hq, hsc, hb⟩ := hs.scopes.of_lookup? hl
      rw [hs.path] at hq
      rcases Bool.eq_false_or_eq_true n.hasExec with hx | hx
      · exact .exec hn hx ⟨q, (hsc.bound e value hb).exec hn hx, hq⟩
      · have := ((hsc.bound e value hb).data hn hx).1
        simp_all
  case inline =>
    intro pending e s n r inputs code s₁ em s₂ value hn _ hx _ hi _ _ hI hem _ hF
    obtain ⟨-, rfl, -, -⟩ := emit_ok hem
    rw [note_of_not_temporary s (.inr hi)] at hI
    obtain ⟨hF, hI⟩ := hI hF
    refine ⟨hF, fun p hd hs => ?_⟩
    obtain ⟨hs₁, hN, hA⟩ := hI p (fun t ht hk e' he' => hd.through hn hx ⟨t, ht, hk, he'⟩) hs
    exact ⟨hs₁.of_scopes rfl, hN,
      .inline hn hx hi fun e' ⟨t, ht, hk, he'⟩ => hA t ht hk e' he'⟩
  case temporary =>
    intro pending e s n r hidden inputs code s₁ em s₂ value hn _ hx _ hi _ hhidden _ hI hem _
    obtain ⟨-, hcount, -, -⟩ := emit_ok hem
    -- in this pass a temporary is declared where it is read
    obtain rfl : hidden = 0 := by simpa [placement] using hhidden
    simp only [State.raise_zero, State.lower_zero, note_of_temporary s hx hi] at hI ⊢
    intro hF
    rw [State.fetch_reads, declare_reads, hcount] at hF
    obtain ⟨hF, hI⟩ := hI hF
    refine ⟨fun r hr => hF r (List.mem_append_left _ hr), fun p hd hs => ?_⟩
    obtain ⟨hs₁, hN, hA⟩ :=
      hI p (fun t ht hk e' he' => hd.through hn hx ⟨t, ht, hk, he'⟩) (hs.of_scopes rfl)
    have hread : (e.node, p) ∈ reads := by
      rw [← hid hn, ← hs.path]
      exact hF _ (List.mem_append_right _ (.head _))
    have hfeeds : ∀ n', x.node? e.node = some n' → ∀ e', Feeds x n' e' →
        Recorded x entry flow reads p e' := by
      rintro n' hn' e' ⟨t, ht, hk, he'⟩
      rw [hn] at hn'
      cases hn'
      exact hA t ht hk e' he'
    have hbound : ∀ port, Recorded.Bound x entry flow reads ⟨n.node.id, port⟩ p := by
      intro port
      rw [hid hn]
      refine ⟨fun hn' hx' => ?_, fun hn' _ => ?_⟩ <;> rw [hn] at hn' <;> cases hn'
      · simp [hx] at hx'
      · exact ⟨hi, hread, hfeeds n hn⟩
    have hs₂ : s₂.Homed (Recorded.Bound x entry flow reads) (fun _ _ => True) p :=
      hs₁.of_scopes (by rw [hcount])
    obtain ⟨hs₃, -⟩ := hs₂.declare fun _ _ port _ _ => ⟨hbound port.id, trivial⟩
    refine ⟨hs₃.fetch e, fun id q hm => ?_, .temporary hn hx hi hread⟩
    rw [State.fetch_reads, declare_reads, hcount] at hm
    rcases hN id q hm with hm | hm
    · rcases List.mem_append.mp hm with hm | hm
      · exact .inl hm
      · obtain ⟨rfl, rfl⟩ : id = n.node.id ∧ q = Scopes.path s.scopes := by simpa using hm
        rw [hid hn, hs.path]
        exact .inr ⟨⟨e.port, hd⟩, p, List.prefix_rfl, hread, hfeeds⟩
    · exact .inr hm
  case nil => exact fun hF => ⟨hF, fun p _ hs => ⟨hs, .refl _, by simp⟩⟩
  case skip =>
    intro pending n t ts inputs s inputs' code s' hk hI
    exact hI.imp (fun h t' ht' => h t' (.tail _ ht')) fun p _ h t' ht' hk' => by
      rcases List.mem_cons.mp ht' with rfl | ht'
      · exact absurd hk' hk
      · exact h t' ht' hk'
  case connected =>
    intro pending n t ts inputs s e value code s₁ inputs' more s₂ hk he hR _ hI
    refine ((hR.imp (fun h => h t (.head _) hk e he) fun _ _ h => h).trans
      (hI.imp (fun h t' ht' => h t' (.tail _ ht')) fun _ _ h => h)).imp id fun p _ h t' ht' hk' e' he' => ?_
    rcases List.mem_cons.mp ht' with rfl | ht'
    · rw [he] at he'
      cases he'
      exact h.1
    · exact h.2 t' ht' hk' e' he'
  case literal =>
    intro pending n t ts inputs s value inputs' code s' hk he _ hI
    exact hI.imp (fun h t' ht' => h t' (.tail _ ht')) fun p _ h t' ht' hk' e' he' => by
      rcases List.mem_cons.mp ht' with rfl | ht'
      · rw [he] at he'
        cases he'
      · exact h t' ht' hk' e' he'

/-- The home of the outputs of a node of the flow. -/
theorem home_of_visit {p : Path} {id : String} {n : PlacedNode} {r : Recipe}
    (hv : (p, id) ∈ flow.visits [] entry) (hn : x.node? id = some n)
    (hr : Recipe.ofType? n.node.nodeType = some r) (port : String) :
    Home x entry flow ⟨id, port⟩ (if r.bindsInside then p ++ [⟨id, "body"⟩] else p) :=
  .inr ⟨p, n, r, hv, hn, hr, rfl⟩

variable (entry flow reads) in
/-- The recording pass, node by node. -/
theorem recording_keeping (hid : ∀ {id n}, x.node? id = some n → n.node.id = id) :
    Keeping x .recording (Recorded.Bound x entry flow reads) (fun _ _ => True)
      (Recorded.Evaluated x entry flow reads) (fun rs => ∀ r ∈ rs, r ∈ reads)
      (fun p id => (p, id) ∈ flow.visits [] entry)
      (fun p id => ∀ n, x.node? id = some n → ∀ e, Feeds x n e →
        Recorded x entry flow reads p e) := by
  have hexec : ∀ {id n q} {port : String}, x.node? id = some n → n.hasExec = true →
      Home x entry flow ⟨id, port⟩ q → Recorded.Bound x entry flow reads ⟨id, port⟩ q := by
    intro id n q port hn hx hq
    refine ⟨fun _ _ => hq, fun hn' hx' => ?_⟩
    rw [hn] at hn'
    cases hn'
    simp [hx] at hx'
  constructor
  case node_id => exact hid
  case final => exact fun hin hF => ((recording entry flow reads hid).inputs hin hF).1
  case inputs =>
    intro p n s values code s' hv hn hin hF hs
    have hnode : n.node.id ∈ flow.nodes := by
      rw [← Parts.visits_map_snd [] entry]
      exact List.mem_map.mpr ⟨_, hv, rfl⟩
    obtain ⟨hs', hN, hA⟩ := ((recording entry flow reads hid).inputs hin hF).2 p
      (fun t ht hk e he => .visited hnode hn ⟨t, ht, hk, he⟩) hs
    refine ⟨hs', fun _ _ _ => trivial, hN, fun n' hn' e ⟨t, ht, hk, he⟩ => ?_⟩
    rw [hn] at hn'
    cases hn'
    exact hA t ht hk e he
  case outer =>
    intro p id n r hv hn hx hr hb port
    refine hexec hn hx ?_
    simpa [hb] using home_of_visit hv hn hr port
  case inner =>
    intro p id n r hv hn hx hr hb port
    refine hexec hn hx ?_
    simpa [hb] using home_of_visit hv hn hr port

end

/-- **What the recording pass knows at its end.**  Every value a node of the flow needs is recorded
for the block of the node, and every read is one of a node that is demanded and has been evaluated
in a block around. -/
theorem recording_spec {x : Index} {n : PlacedNode} {flow : Parts} {code : Code} {s : State}
    (hid : ∀ {id n}, x.node? id = some n → n.node.id = id) (hn : x.node? n.node.id = some n)
    (hx : n.hasExec = true) (hlaid : flow.Laid x (Flow.entryItems n))
    (hw : EntryFunction.walkFlow x .recording n flow = .ok (code, s)) :
    (∀ id q, (id, q) ∈ s.reads → Recorded.Evaluated x n.node.id flow s.reads id q) ∧
      ∀ q id, (q, id) ∈ flow.visits [] n.node.id → ∀ m, x.node? id = some m →
        ∀ e, Feeds x m e → Recorded x n.node.id flow s.reads q e := by
  obtain ⟨-, hreads, hvisits⟩ := (recording_keeping n.node.id flow s.reads hid).entry hw hlaid (fun _ h => h)
    (fun _ _ h => h) fun port => by
      refine ⟨fun _ _ => .inl ⟨rfl, rfl⟩, fun hn' hx' => ?_⟩
      rw [hn] at hn'
      cases hn'
      simp [hx] at hx'
  exact ⟨hreads, hvisits⟩

end VisualScript
