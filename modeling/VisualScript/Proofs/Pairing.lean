import VisualScript.Proofs.Recipes

/-!
# Proofs — Pairing

Which slots the ports of a saved node get.

* `Matching.slots_maximal`: no slot is used twice, a slot has the kind of its port, and of each kind
  as many ports have one as there are ports and slots for.  Labels come first: a port that is left to
  the pairing by order names no slot that was free when its turn came.
* `Catalog.own_slots`: where the labels of a definition tell its templates apart, ports that were
  made from it find their own templates again, in whatever order and number they were saved.  The
  built-in definitions are like that.
* `Index.addNode_builtin`: nodes without ports of their own are placed by order alone.
-/

namespace VisualScript

namespace Matching

/-- The label of the port is, up to what labels are compared by, the label or the name of the
template. -/
def Names (port : Port) (t : PortTemplate) : Prop :=
  labelKey port.label ≠ "" ∧
    (labelKey port.label = labelKey t.label ∨ labelKey port.label = labelKey t.name)

theorem isNamedBy_iff {t : PortTemplate} {port : Port} : isNamedBy t port = true ↔ Names port t := by
  simp [isNamedBy, Names]

theorem takeFirst_eq_none {α : Type} {p : α → Bool} : ∀ {xs : List α}, takeFirst p xs = none →
    ∀ a ∈ xs, p a = false
  | [], _, _, ha => by cases ha
  | b :: xs, h, a, ha => by
    rw [takeFirst] at h
    split at h
    · cases h
    · rename_i hb
      rcases List.mem_cons.mp ha with rfl | ha
      · simpa using hb
      · exact takeFirst_eq_none (Option.map_eq_none_iff.mp h) a ha

theorem takeFirst_append {α : Type} {p : α → Bool} {y : α} {ys : List α} (hy : p y = true) :
    ∀ {xs : List α}, (∀ a ∈ xs, p a = false) → takeFirst p (xs ++ y :: ys) = some (y, xs ++ ys)
  | [], _ => by simp [takeFirst, hy]
  | a :: xs, h => by
    rw [List.cons_append, takeFirst, h a (.head _),
      takeFirst_append hy fun b hb => h b (.tail _ hb)]
    rfl

/-! ### By label -/

theorem byLabel_named : ∀ (ports : List Port) (free : List Slot),
    List.Forall₂ (fun port slot => ∀ s ∈ slot, Names port s.1) ports (byLabel ports free).1
  | [], _ => .nil
  | port :: ports, free => by
    rw [byLabel]
    split
    · rename_i s left hs
      refine .cons (fun t ht => ?_) (byLabel_named ports left)
      cases ht
      have hp := (takeFirst_perm hs).2
      rw [Bool.and_eq_true] at hp
      exact isNamedBy_iff.mp hp.2
    · exact .cons (fun _ ht => by cases ht) (byLabel_named ports free)

/-- A slot that is named by a port without one has gone to a port before it. -/
theorem byLabel_taken {s : Slot} {port : Port} (hkind : s.1.kind = port.kind)
    (hnames : Names port s.1) (ports : List Port) : ∀ (free : List Slot) (i : Nat),
      ports[i]? = some port → (byLabel ports free).1[i]? = some none → s ∈ free →
        ∃ j < i, (byLabel ports free).1[j]? = some (some s) := by
  induction ports with
  | nil => intro free i hport; simp at hport
  | cons q ports ih =>
    intro free i hport hnone hs
    rw [byLabel] at hnone ⊢
    cases hq : takeFirst (fun s : Slot => s.1.kind == q.kind && isNamedBy s.1 q) free with
    | some found =>
      simp only [hq] at hnone ⊢
      cases i with
      | zero => simp at hnone
      | succ i =>
        -- the slot went to the first port, or it is left for the others
        rcases List.mem_cons.mp ((takeFirst_perm hq).1.mem_iff.mpr hs) with rfl | hs
        · exact ⟨0, Nat.succ_pos i, rfl⟩
        · obtain ⟨j, hj, he⟩ := ih _ i hport hnone hs
          exact ⟨j + 1, Nat.succ_lt_succ hj, he⟩
    | none =>
      simp only [hq] at hnone ⊢
      cases i with
      | zero =>
        obtain rfl := Option.some.inj hport
        have hnot := takeFirst_eq_none hq s hs
        simp [hkind, isNamedBy_iff.mpr hnames] at hnot
      | succ i =>
        obtain ⟨j, hj, he⟩ := ih _ i hport hnone hs
        exact ⟨j + 1, Nat.succ_lt_succ hj, he⟩

/-! ### By order -/

/-- What has a slot keeps it. -/
theorem byOrder_keeps {port : Port} {s : Slot} (ports : List (Port × Option Slot)) :
    ∀ (free : List Slot) (i : Nat), ports[i]? = some (port, some s) →
      (byOrder ports free)[i]? = some (some s) := by
  induction ports with
  | nil => intro free i h; simp at h
  | cons q ports ih =>
    intro free i h
    obtain ⟨q, slot⟩ := q
    cases i with
    | zero =>
      cases Option.some.inj h
      rfl
    | succ i =>
      cases slot with
      | some t => exact ih free i h
      | none =>
        rw [byOrder]
        split <;> exact ih _ i h

/-- As many ports of a kind get a slot as there are ports without one and slots left. -/
theorem byOrder_count (k : PortKind) : ∀ (ports : List (Port × Option Slot)) (free : List Slot),
    (((ports.map Prod.fst).zip (byOrder ports free)).countP fun q => q.1.kind = k ∧ q.2.isSome) =
      (ports.countP fun q => q.1.kind = k ∧ q.2.isSome) +
        min (ports.countP fun q => q.1.kind = k ∧ q.2 = none) (free.countP (·.1.kind = k))
  | [], _ => by simp [byOrder]
  | (port, some s) :: ports, free => by
    have ih := byOrder_count k ports free
    simp only [byOrder, List.map_cons, List.zip_cons_cons, List.countP_cons] at ih ⊢
    simp only [Option.isSome_some, and_true, reduceCtorEq, and_false, decide_false,
      Bool.false_eq_true, if_false]
    omega
  | (port, none) :: ports, free => by
    rw [byOrder]
    split
    · rename_i s left hs
      obtain ⟨hperm, hp⟩ := takeFirst_perm hs
      have hkind : s.1.kind = port.kind := by simpa using hp
      have ih := byOrder_count k ports left
      rw [← hperm.countP_eq]
      simp only [List.map_cons, List.zip_cons_cons, List.countP_cons, hkind] at ih ⊢
      simp only [Option.isSome_some, and_true, Option.isSome_none, Bool.false_eq_true, and_false,
        decide_false, if_false]
      split <;> omega
    · rename_i hs
      have ih := byOrder_count k ports free
      simp only [List.map_cons, List.zip_cons_cons, List.countP_cons] at ih ⊢
      simp only [Option.isSome_none, Bool.false_eq_true, and_false, decide_false, if_false,
        and_true]
      -- a port of the kind goes without only if no slot of the kind is left
      by_cases hk : port.kind = k
      · have hfree : free.countP (·.1.kind = k) = 0 := by
          refine List.countP_eq_zero.mpr fun s hm => ?_
          simpa [hk] using takeFirst_eq_none hs s hm
        omega
      · simp only [hk, decide_false, Bool.false_eq_true, if_false]
        omega

/-! ### The whole pairing -/

theorem nodup_positions (ts : List PortTemplate) : (ts.zipIdx.map Prod.snd).Nodup := by
  rw [List.zipIdx_map_snd]
  exact List.nodup_range'

/-- What the labels have given a port stays with it. -/
theorem slots_keep {ports : List Port} {ts : List PortTemplate} {i : Nat} {s : Slot}
    (h : (byLabel ports ts.zipIdx).1[i]? = some (some s)) :
    (slots ports ts)[i]? = some (some s) := by
  have hlen := (byLabel_perm ports ts.zipIdx).1.length_eq
  obtain ⟨port, hport⟩ : ∃ port, ports[i]? = some port :=
    ⟨_, List.getElem?_eq_getElem (hlen ▸ (List.getElem?_eq_some_iff.mp h).1)⟩
  exact byOrder_keeps _ _ i (List.getElem?_zip_eq_some.mpr ⟨hport, h⟩)

/-- A pairing of ports with the slots of some templates, where `named` is what has come of the
labels when all ports have had their turn. -/
structure LargestPairing (ports : List Port) (ts : List PortTemplate)
    (named paired : List (Option Slot)) : Prop where
  /-- Every port has an entry, and a slot in it is of the kind of the port. -/
  kinds : List.Forall₂ Fits ports paired
  slots : ∀ s ∈ paired.filterMap id, s ∈ ts.zipIdx
  /-- No position is used twice. -/
  apart : ((paired.filterMap id).map Prod.snd).Nodup
  count : ∀ k, ((ports.zip paired).countP fun q => q.1.kind = k ∧ q.2.isSome) =
    min (ports.countP (·.kind = k)) (ts.countP (·.kind = k))
  /-- Labels come first: what they have given a port stays with it, -/
  labels : List.Forall₂ (fun port slot => ∀ s ∈ slot, Names port s.1) ports named
  kept : ∀ (i : Nat) (s : Slot), named[i]? = some (some s) → paired[i]? = some (some s)
  /-- and a port to which they have given nothing names no slot that was free at its turn. -/
  taken : ∀ (i : Nat) (port : Port) (s : Slot), ports[i]? = some port → named[i]? = some none →
    s ∈ ts.zipIdx → s.1.kind = port.kind → Names port s.1 → ∃ j < i, named[j]? = some (some s)

/-- **The pairing is as large as the kinds allow, and labels come first.** -/
theorem slots_maximal (ports : List Port) (ts : List PortTemplate) :
    LargestPairing ports ts (byLabel ports ts.zipIdx).1 (slots ports ts) := by
  obtain ⟨hfit, left, hperm⟩ := slots_spec ports ts
  obtain ⟨hnamed, -⟩ := byLabel_perm ports ts.zipIdx
  have hlen := hnamed.length_eq
  have hports : (ports.zip (byLabel ports ts.zipIdx).1).map Prod.fst = ports :=
    List.map_fst_zip (Nat.le_of_eq hlen)
  constructor
  case kinds => exact hfit
  case slots => exact fun s hs => hperm.subset (List.mem_append_left _ hs)
  case apart =>
    have hnodup := (hperm.map Prod.snd).nodup_iff.mpr (nodup_positions ts)
    exact hnodup.sublist ((List.sublist_append_left _ left).map _)
  case count =>
    intro k
    have hcount :=
      byOrder_count k (ports.zip (byLabel ports ts.zipIdx).1) (byLabel ports ts.zipIdx).2
    rw [hports] at hcount
    have hlabel := byLabel_count k ports ts.zipIdx
    -- the ports of the kind have a slot by label or not
    have hsplit : ports.countP (·.kind = k) =
        ((ports.zip (byLabel ports ts.zipIdx).1).countP fun q => q.1.kind = k ∧ q.2.isSome) +
          (ports.zip (byLabel ports ts.zipIdx).1).countP fun q => q.1.kind = k ∧ q.2 = none := by
      conv_lhs => rw [← hports, List.countP_map,
        List.countP_eq_countP_filter_add _ _ fun q => q.2.isSome]
      simp only [List.countP_filter]
      congr 2 <;> funext q <;> cases q.2 <;> simp
    have htemplates : ts.zipIdx.countP (·.1.kind = k) = ts.countP (·.kind = k) := by
      conv_rhs => rw [← List.zipIdx_map_fst 0 ts, List.countP_map]
      rfl
    rw [slots, hcount]
    rw [htemplates] at hlabel
    omega
  case labels => exact byLabel_named ports ts.zipIdx
  case kept => exact fun _ _ => slots_keep
  case taken => exact fun i port s hport hnone hs hkind hnames =>
    byLabel_taken hkind hnames ports ts.zipIdx i hport hnone hs

/-! ### Ports that were made from the templates -/

/-- The labels tell the templates apart: each has letters or numbers, and it is not the label or the
name of an earlier template of its kind. -/
structure ToldApart (ts : List PortTemplate) : Prop where
  labelled : ∀ t ∈ ts, labelKey t.label ≠ ""
  earlier  : ts.Pairwise fun u t => t.kind = u.kind →
    labelKey t.label ≠ labelKey u.label ∧ labelKey t.label ≠ labelKey u.name

/-- The port that a slot gives a new node. -/
def portOf (stem : String) (isInput : Bool) (s : Slot) : Port :=
  { id := stem ++ toString s.2, label := s.1.label, kind := s.1.kind
    valueType := s.1.valueType.map (·.name), isInput := isInput }

theorem portsOf_eq (stem : String) (isInput : Bool) (ts : List PortTemplate) :
    Catalog.portsOf stem isInput ts = ts.zipIdx.map (portOf stem isInput) := rfl

theorem portOf_snd {stem : String} {isInput : Bool} {s s' : Slot}
    (h : portOf stem isInput s = portOf stem isInput s') : s.2 = s'.2 := by
  have hid : stem ++ toString s.2 = stem ++ toString s'.2 := congrArg Port.id h
  exact toString_inj (String.toList_inj.mp (by simpa using congrArg String.toList hid))

theorem nodup_portsOf (stem : String) (isInput : Bool) (ts : List PortTemplate) :
    (Catalog.portsOf stem isInput ts).Nodup := by
  rw [portsOf_eq, List.nodup_iff_pairwise_ne, List.pairwise_map]
  refine (List.pairwise_map.mp (nodup_positions ts)).imp fun hne he => ?_
  exact hne (portOf_snd he)

variable {ts : List PortTemplate} {stem : String} {isInput : Bool}

/-- The port of a slot does not name the slots before it. -/
theorem not_isNamedBy_before (h : ToldApart ts) {before behind : List Slot} {s : Slot}
    (hfree : (before ++ s :: behind).Sublist ts.zipIdx) : ∀ a ∈ before,
      (a.1.kind == (portOf stem isInput s).kind &&
        isNamedBy a.1 (portOf stem isInput s)) = false := by
  intro a ha
  have hpairs := h.earlier
  rw [← List.zipIdx_map_fst 0 ts, List.pairwise_map] at hpairs
  have hearlier := (List.pairwise_append.mp (hpairs.sublist hfree)).2.2 a ha s (.head _)
  rw [Bool.and_eq_false_imp, beq_iff_eq, ← Bool.not_eq_true, isNamedBy_iff]
  rintro hkind ⟨-, hlabel | hname⟩
  · exact (hearlier hkind.symm).1 hlabel
  · exact (hearlier hkind.symm).2 hname

theorem takeFirst_portOf (h : ToldApart ts) {before behind : List Slot} {s : Slot}
    (hfree : (before ++ s :: behind).Sublist ts.zipIdx) :
    takeFirst (fun a : Slot => a.1.kind == (portOf stem isInput s).kind &&
      isNamedBy a.1 (portOf stem isInput s)) (before ++ s :: behind) =
        some (s, before ++ behind) := by
  refine takeFirst_append ?_ (not_isNamedBy_before h hfree)
  have hmem : s.1 ∈ ts := by
    rw [← List.zipIdx_map_fst 0 ts]
    exact List.mem_map_of_mem (hfree.subset (by simp))
  have hown : Names (portOf stem isInput s) s.1 := ⟨h.labelled s.1 hmem, .inl rfl⟩
  rw [Bool.and_eq_true, isNamedBy_iff]
  exact ⟨beq_self_eq_true _, hown⟩

/-- No port takes the slot of another. -/
theorem byLabel_portOf (h : ToldApart ts) (ss : List Slot) : ∀ free : List Slot,
    free.Sublist ts.zipIdx → ss.Nodup → (∀ s ∈ ss, s ∈ free) →
      (byLabel (ss.map (portOf stem isInput)) free).1 = ss.map some := by
  induction ss with
  | nil => exact fun _ _ _ _ => rfl
  | cons s ss ih =>
    intro free hfree hnodup hmem
    obtain ⟨before, behind, rfl⟩ := List.append_of_mem (hmem s (.head _))
    obtain ⟨hs, hnodup⟩ := List.nodup_cons.mp hnodup
    have hleft : ∀ a ∈ ss, a ∈ before ++ behind := by
      intro a ha
      have hne : a ≠ s := fun he => hs (he ▸ ha)
      simpa [hne] using hmem a (.tail _ ha)
    have hrest := ih (before ++ behind)
      (((List.sublist_cons_self s behind).append_left before).trans hfree) hnodup hleft
    rw [List.map_cons, byLabel, takeFirst_portOf h hfree]
    simp only [hrest, List.map_cons]

/-- Ports that were made from different slots are paired with these slots. -/
theorem slots_portOf (h : ToldApart ts) {ss : List Slot} (hnodup : ss.Nodup)
    (hmem : ∀ s ∈ ss, s ∈ ts.zipIdx) :
    slots (ss.map (portOf stem isInput)) ts = ss.map some := by
  have hnamed : (byLabel (ss.map (portOf stem isInput)) ts.zipIdx).1 = ss.map some :=
    byLabel_portOf h ss ts.zipIdx (.refl _) hnodup hmem
  refine List.ext_getElem? fun i => ?_
  have hlen : (slots (ss.map (portOf stem isInput)) ts).length = ss.length := by
    simpa using (slots_spec (ss.map (portOf stem isInput)) ts).1.length_eq.symm
  rcases Nat.lt_or_ge i ss.length with hi | hi
  · have hslot : (byLabel (ss.map (portOf stem isInput)) ts.zipIdx).1[i]? = some (some ss[i]) := by
      simp [hnamed, hi]
    rw [slots_keep hslot]
    simp [hi]
  · rw [List.getElem?_eq_none (by omega), List.getElem?_eq_none (by simpa using hi)]

/-- Different ports come from different slots. -/
theorem exists_slots : ∀ {ports : List Port}, ports.Nodup →
    (∀ p ∈ ports, p ∈ Catalog.portsOf stem isInput ts) →
      ∃ ss : List Slot, ports = ss.map (portOf stem isInput) ∧ ss.Nodup ∧
        ∀ s ∈ ss, s ∈ ts.zipIdx
  | [], _, _ => ⟨[], rfl, List.nodup_nil, by simp⟩
  | p :: ports, hnodup, hmem => by
    obtain ⟨hp, hnodup⟩ := List.nodup_cons.mp hnodup
    obtain ⟨ss, rfl, hss, hin⟩ := exists_slots hnodup fun q hq => hmem q (.tail _ hq)
    obtain ⟨s, hs, rfl⟩ := List.mem_map.mp (portsOf_eq stem isInput ts ▸ hmem p (.head _))
    refine ⟨s :: ss, rfl, List.nodup_cons.mpr ⟨fun h => hp (List.mem_map_of_mem h), hss⟩,
      fun a ha => ?_⟩
    rcases List.mem_cons.mp ha with rfl | ha
    · exact hs
    · exact hin a ha

/-- The ports of a list are paired with the templates they were made from: the one that was made
from the template at position `i` has the slot there. -/
def OwnSlots (made : List Port) (ts : List PortTemplate) (ports : List Port) : Prop :=
  ∀ (k i : Nat) (p : Port) (t : PortTemplate), ports[k]? = some p → made[i]? = some p →
    ts[i]? = some t → (slots ports ts)[k]? = some (some (t, i))

theorem ownSlots_of_toldApart (h : ToldApart ts) {ports : List Port} (hnodup : ports.Nodup)
    (hmem : ∀ p ∈ ports, p ∈ Catalog.portsOf stem isInput ts) :
    OwnSlots (Catalog.portsOf stem isInput ts) ts ports := by
  obtain ⟨ss, rfl, hss, hin⟩ := exists_slots hnodup hmem
  intro k i p t hk hi ht
  obtain ⟨s, hs, rfl⟩ := Option.map_eq_some_iff.mp (List.getElem?_map .. ▸ hk)
  -- the position in the id of the port tells the slot
  have hpos : s.2 = i := by
    rw [portsOf_eq, List.getElem?_map, List.getElem?_zipIdx, ht] at hi
    have := portOf_snd (Option.some.inj hi)
    simpa using this.symm
  have hslot : s = (t, i) := by
    have := List.mem_zipIdx_iff_getElem?.mp (hin s (List.mem_of_getElem? hs))
    rw [hpos, ht] at this
    exact Prod.ext (Option.some.inj this).symm hpos
  rw [slots_portOf h hss hin, List.getElem?_map, hs, hslot]
  rfl

/-- A node that was saved with all its ports in their order has each slot at its place. -/
theorem slots_portsOf (h : ToldApart ts) :
    slots (Catalog.portsOf stem isInput ts) ts = ts.zipIdx.map some := by
  rw [portsOf_eq]
  refine slots_portOf h ?_ fun _ hs => hs
  exact .of_map _ (nodup_positions ts)

/-! ### Keys of plain labels

Most small letters are looked up in vain among all the runs of capitals.  Below the second run only
the capitals of the first move, and that is all there is to the labels of the built-in templates. -/

def smallChar (c : Char) : Char :=
  if 65 ≤ c.toNat ∧ c.toNat ≤ 90 then Char.ofNat (c.toNat + 32) else c

theorem lowerChar_of_lt {c : Char} (h : c.toNat < 192) : Text.lowerChar c = smallChar c := by
  have hrest : Text.lowercaseRuns.tail.find? (·.covers c.toNat) = none := by
    refine List.find?_eq_none.mpr fun r hr => ?_
    have hfirst : ∀ r ∈ Text.lowercaseRuns.tail, 192 ≤ r.first := by decide +kernel
    have hr := hfirst r hr
    rw [Text.CaseRun.covers, decide_eq_false (by omega : ¬ r.first ≤ c.toNat)]
    simp
  have hruns : Text.lowercaseRuns = ⟨65, 90, 1, 32⟩ :: Text.lowercaseRuns.tail := rfl
  rw [Text.lowerChar, hruns, List.find?_cons, hrest]
  by_cases hc : 65 ≤ c.toNat ∧ c.toNat ≤ 90
  · have hcovers : Text.CaseRun.covers ⟨65, 90, 1, 32⟩ c.toNat = true := by
      simp [Text.CaseRun.covers, hc, Nat.mod_one]
    simp only [hcovers, smallChar, if_pos hc]
    rfl
  · have hcovers : Text.CaseRun.covers ⟨65, 90, 1, 32⟩ c.toNat = false := by
      rw [Text.CaseRun.covers, Nat.mod_one, ← Bool.decide_and, decide_eq_false hc]
      rfl
    simp only [hcovers, smallChar, if_neg hc]

theorem lowerFrom_of_lt (cs : List Char) : ∀ before : List Char, (∀ c ∈ cs, c.toNat < 192) →
    Text.lowerFrom before cs = cs.map smallChar := by
  induction cs with
  | nil => exact fun _ _ => rfl
  | cons c cs ih =>
    intro before h
    have hc := h c (.head _)
    have hsigma : (c == 'Σ') = false := by
      refine beq_eq_false_iff_ne.mpr ?_
      rintro rfl
      exact absurd hc (by decide)
    have hdotted : (c == 'İ') = false := by
      refine beq_eq_false_iff_ne.mpr ?_
      rintro rfl
      exact absurd hc (by decide)
    rw [Text.lowerFrom, hsigma, hdotted, ih _ fun c hm => h c (.tail _ hm), lowerChar_of_lt hc]
    rfl

/-- The key of a text without letters from the second run on. -/
def plainKey (s : String) : List Char := (s.toList.map smallChar).filter Text.isAlphanumeric

def Plain (s : String) : Prop := ∀ c ∈ s.toList, c.toNat < 192

-- over the characters of the text, not over all characters
instance (s : String) : Decidable (Plain s) :=
  List.decidableBAll (fun c : Char => c.toNat < 192) s.toList

theorem Plain.labelKey_eq {s : String} (h : Plain s) : labelKey s = String.ofList (plainKey s) := by
  rw [labelKey, Text.lowercase, lowerFrom_of_lt s.toList [] h, String.toList_ofList]
  rfl

/-- `ToldApart`, as it is decided of templates with plain labels and names. -/
def PlainlyApart (ts : List PortTemplate) : Prop :=
  (∀ t ∈ ts, Plain t.label ∧ Plain t.name ∧ plainKey t.label ≠ []) ∧
    ts.Pairwise fun u t => t.kind = u.kind →
      plainKey t.label ≠ plainKey u.label ∧ plainKey t.label ≠ plainKey u.name

instance (ts : List PortTemplate) : Decidable (PlainlyApart ts) :=
  inferInstanceAs (Decidable (_ ∧ _))

theorem PlainlyApart.toldApart (h : PlainlyApart ts) : ToldApart ts := by
  obtain ⟨hplain, hapart⟩ := h
  constructor
  case labelled =>
    intro t ht hkey
    rw [(hplain t ht).1.labelKey_eq] at hkey
    exact (hplain t ht).2.2 (String.ofList_injective hkey)
  case earlier =>
    refine hapart.imp_of_mem fun hu ht hne hkind => ?_
    rw [(hplain _ ht).1.labelKey_eq, (hplain _ hu).1.labelKey_eq, (hplain _ hu).2.1.labelKey_eq]
    exact ⟨fun he => (hne hkind).1 (String.ofList_injective he),
      fun he => (hne hkind).2 (String.ofList_injective he)⟩

end Matching

open Matching

/-- The labels tell the templates of each side apart. -/
structure Definition.ToldApart (d : Definition) : Prop where
  inputs  : Matching.ToldApart d.inputs
  outputs : Matching.ToldApart d.outputs

namespace Catalog

theorem builtin_toldApart : ∀ d ∈ builtin.definitions, d.ToldApart := by
  have hplain : ∀ d ∈ builtin.definitions, PlainlyApart d.inputs ∧ PlainlyApart d.outputs := by
    decide +kernel
  exact fun d hd => ⟨(hplain d hd).1.toldApart, (hplain d hd).2.toldApart⟩

/-- **Ports find their own templates again.**  Let the labels of a definition tell its templates
apart, as they do for every built-in one.  Different ports of a new node of that type, in any order
and number, are paired with the templates they were made from, and so all of them in their order are
paired position by position. -/
theorem own_slots : (∀ d ∈ builtin.definitions, d.ToldApart) ∧ ∀ d : Definition, d.ToldApart →
    (∀ ports : List Port, ports.Nodup → (∀ p ∈ ports, p ∈ inputPorts d) →
      OwnSlots (inputPorts d) d.inputs ports) ∧
    (∀ ports : List Port, ports.Nodup → (∀ p ∈ ports, p ∈ outputPorts d) →
      OwnSlots (outputPorts d) d.outputs ports) ∧
    slots (inputPorts d) d.inputs = d.inputs.zipIdx.map some ∧
    slots (outputPorts d) d.outputs = d.outputs.zipIdx.map some :=
  ⟨builtin_toldApart, fun _ hd =>
    ⟨fun _ hnodup hmem => ownSlots_of_toldApart hd.inputs hnodup hmem,
      fun _ hnodup hmem => ownSlots_of_toldApart hd.outputs hnodup hmem,
      slots_portsOf hd.inputs, slots_portsOf hd.outputs⟩⟩

/-- A switch that was saved with its outputs in the reverse order; the label of one case is there the
name of another. -/
theorem own_slots_switch : ∃ d ∈ builtin.definitions, d.nodeType = "switch" ∧ d.ToldApart ∧
    OwnSlots (outputPorts d) d.outputs (outputPorts d).reverse := by
  have hswitch : builtin.definitions.any (·.nodeType == "switch") = true := by decide +kernel
  obtain ⟨d, hd, htype⟩ := List.any_eq_true.mp hswitch
  have hapart := own_slots.1 d hd
  refine ⟨d, hd, by simpa using htype, hapart, (own_slots.2 d hapart).2.1 _ ?_ ?_⟩
  · exact List.nodup_reverse.mpr (nodup_portsOf _ _ _)
  · exact fun p hp => List.mem_reverse.mp hp

end Catalog

/-! ### Nodes without ports of their own

In a graph over the built-in catalog their ports are paired in their order, so that no label has to
be looked at. -/

namespace PlacedNode

/-- The sockets of a node with all its ports are those of its templates, one by one. -/
theorem socketsOf_portsOf {ts : List PortTemplate} (h : ToldApart ts) (stem : String)
    (isInput : Bool) : socketsOf isInput (Catalog.portsOf stem isInput ts) ts =
      ts.zipIdx.map fun s => ⟨portOf stem isInput s, some s.1⟩ := by
  rw [socketsOf, templates, slots_portsOf h, portsOf_eq, List.map_map, List.zip_map', List.map_map]
  rfl

def paired (node : Node) (d : Definition) : PlacedNode :=
  if node.inputs.isEmpty && node.outputs.isEmpty then
    { node := node, definition := d
      inputs := d.inputs.zipIdx.map fun s => ⟨portOf "input_" true s, some s.1⟩
      outputs := d.outputs.zipIdx.map fun s => ⟨portOf "output_" false s, some s.1⟩ }
  else make node d

theorem make_eq_paired {d : Definition} (h : d.ToldApart) (node : Node) :
    make node d = paired node d := by
  have hin := socketsOf_portsOf h.inputs "input_" true
  have hout := socketsOf_portsOf h.outputs "output_" false
  unfold make effectivePorts paired
  by_cases hports : (node.inputs.isEmpty && node.outputs.isEmpty) = true
  · rw [if_pos hports, if_pos hports, ← hin, ← hout]
    rfl
  · rw [if_neg hports, if_neg hports, make, effectivePorts, if_neg hports]

end PlacedNode

namespace Index

def addPaired (x : Index) (node : Node) : Except Fault Index := do
  if Assoc.contains node.id x.placed then throw (.duplicateNode node.id)
  let d ← Catalog.builtin.require node.nodeType (some node.id)
  let placed := PlacedNode.paired node d
  match Catalog.firstRepeated [] (placed.sockets.map (·.port.id)) with
  | some p => throw (.duplicatePort node.id p)
  | none   => return { x with placed := x.placed ++ [(node.id, placed)] }

theorem addNode_builtin : addNode .builtin = addPaired := by
  funext x node
  unfold addNode addPaired Catalog.require Catalog.find?
  cases hd : Catalog.builtin.definitions.find? (·.nodeType == node.nodeType) with
  | none => rfl
  | some d =>
    have hapart := Catalog.builtin_toldApart d (List.mem_of_find?_eq_some hd)
    have hplaced := PlacedNode.make_eq_paired hapart node
    simp only [bind, Except.bind]
    generalize PlacedNode.paired node d = placed at hplaced ⊢
    subst hplaced
    rfl

end Index

end VisualScript
