import VisualScript.Assoc
import Mathlib.Data.List.Nodup
import Mathlib.Logic.Relation

/-!
# Proofs — Tables

Ordered tables, computations that can fail, and relations without circles.
-/

namespace VisualScript

variable {α β ε : Type}

/-- What a computation that succeeds has gone through. -/
theorem bind_eq_ok {a : Except ε α} {f : α → Except ε β} {b : β} :
    (a >>= f) = .ok b ↔ ∃ v, a = .ok v ∧ f v = .ok b := by
  cases a with
  | error e => simp [bind, Except.bind]
  | ok v => simp [bind, Except.bind]

theorem bind_eq_error {a : Except ε α} {f : α → Except ε β} {e : ε} :
    (a >>= f) = .error e ↔ a = .error e ∨ ∃ v, a = .ok v ∧ f v = .error e := by
  cases a with
  | error e' => simp [bind, Except.bind]
  | ok v => simp [bind, Except.bind]

/-- A check that was passed: its condition did not hold, and what follows it succeeds. -/
theorem refuse_eq_ok {p : Prop} [Decidable p] {e : ε} {a : Except ε α} {b : α}
    (h : (if p then .error e else a) = .ok b) : ¬ p ∧ a = .ok b := by
  split at h
  · cases h
  · exact ⟨by assumption, h⟩

theorem refuse_eq_error {p : Prop} [Decidable p] {e e' : ε} {a : Except ε α}
    (h : (if p then .error e else a) = .error e') : p ∧ e = e' ∨ ¬ p ∧ a = .error e' := by
  split at h
  · exact .inl ⟨by assumption, Except.error.inj h⟩
  · exact .inr ⟨by assumption, h⟩

theorem ok_of_toOption {a : Except ε α} {b : α} (h : a.toOption = some b) : a = .ok b := by
  cases a with
  | error e => cases h
  | ok c => exact congrArg Except.ok (Option.some.inj h)

theorem exists_ok_of_any {a : Except ε α} {p : α → Bool} (h : a.toOption.any p = true) :
    ∃ b, a = .ok b ∧ p b = true := by
  obtain ⟨b, hb, hp⟩ := (Option.any_eq_true ..).mp h
  exact ⟨b, ok_of_toOption hb, hp⟩

/-- A fold that succeeds carries a property of the elements taken so far. -/
theorem foldlM_ok {ε α σ : Type} {f : σ → α → Except ε σ} (P : List α → σ → Prop)
    (step : ∀ taken a s s', P taken s → f s a = .ok s' → P (taken ++ [a]) s') :
    ∀ (as taken : List α) (s s' : σ), P taken s → as.foldlM f s = .ok s' → P (taken ++ as) s'
  | [], taken, s, s', h, hf => by cases hf; simpa using h
  | a :: as, taken, s, s', h, hf => by
    rw [List.foldlM_cons] at hf
    obtain ⟨s₁, h₁, hf⟩ := bind_eq_ok.mp hf
    simpa using foldlM_ok P step as (taken ++ [a]) s₁ s' (step _ _ _ _ h h₁) hf

/-- A fold fails at one of its elements, after those before it have been taken. -/
theorem foldlM_error {ε α σ : Type} {f : σ → α → Except ε σ} {e : ε} :
    ∀ {as : List α} {s : σ}, as.foldlM f s = .error e →
      ∃ before a after s', as = before ++ a :: after ∧ before.foldlM f s = .ok s' ∧
        f s' a = .error e
  | [], _, h => by cases h
  | a :: as, s, h => by
    rw [List.foldlM_cons] at h
    rcases bind_eq_error.mp h with h | ⟨s₁, h₁, h⟩
    · exact ⟨[], a, as, s, rfl, rfl, h⟩
    · obtain ⟨before, b, after, s', rfl, hb, hf⟩ := foldlM_error h
      refine ⟨a :: before, b, after, s', rfl, ?_, hf⟩
      rw [List.foldlM_cons]
      exact bind_eq_ok.mpr ⟨s₁, h₁, hb⟩

/-- The results of a list of computations that all succeed. -/
theorem mapM_ok {f : α → Except ε β} :
    ∀ {as : List α} {bs : List β}, as.mapM f = .ok bs →
      List.Forall₂ (fun a b => f a = .ok b) as bs
  | [], bs, h => by cases h; exact .nil
  | a :: as, bs, h => by
    rw [List.mapM_cons] at h
    obtain ⟨b, hb, h⟩ := bind_eq_ok.mp h
    obtain ⟨bs', hbs, h⟩ := bind_eq_ok.mp h
    cases h
    exact .cons hb (mapM_ok hbs)

theorem exists_of_forall₂ {R : α → β → Prop} {as : List α} {bs : List β}
    (h : List.Forall₂ R as bs) {a : α} (ha : a ∈ as) : ∃ b ∈ bs, R a b := by
  induction h with
  | nil => cases ha
  | cons hb _ ih =>
    rcases List.mem_cons.mp ha with rfl | ha
    · exact ⟨_, .head _, hb⟩
    · obtain ⟨b, hm, hb⟩ := ih ha
      exact ⟨b, .tail _ hm, hb⟩

theorem map_eq_of_forall₂ {α β γ : Type} {R : α → β → Prop} {f : α → γ} {g : β → γ} {as : List α}
    {bs : List β} (h : List.Forall₂ R as bs) (hR : ∀ {a b}, R a b → g b = f a) :
    bs.map g = as.map f := by
  induction h with
  | nil => rfl
  | cons hb _ ih => rw [List.map_cons, List.map_cons, hR hb, ih]

theorem mem_of_mapM_ok {f : α → Except ε β} {as : List α} {bs : List β} (h : as.mapM f = .ok bs)
    {a : α} (ha : a ∈ as) : ∃ b ∈ bs, f a = .ok b :=
  exists_of_forall₂ (mapM_ok h) ha

theorem exists_of_mem_mapM {f : α → Except ε β} {as : List α} {bs : List β}
    (h : as.mapM f = .ok bs) {b : β} (hb : b ∈ bs) : ∃ a ∈ as, f a = .ok b :=
  exists_of_forall₂ (mapM_ok h).flip hb

/-- The order of computations does not count, except for the order of their results. -/
theorem mapM_perm {f : α → Except ε β} {as as' : List α} (h : as'.Perm as) :
    ∀ {bs : List β}, as.mapM f = .ok bs → ∃ bs', as'.mapM f = .ok bs' ∧ bs'.Perm bs := by
  induction h with
  | nil => exact fun hf => ⟨_, hf, .refl _⟩
  | cons a _ ih =>
    intro bs hf
    rw [List.mapM_cons] at hf
    obtain ⟨b, hb, hf⟩ := bind_eq_ok.mp hf
    obtain ⟨bs₁, hbs, hf⟩ := bind_eq_ok.mp hf
    cases hf
    obtain ⟨bs', hbs', hperm⟩ := ih hbs
    refine ⟨b :: bs', ?_, hperm.cons b⟩
    rw [List.mapM_cons, hb, hbs']
    rfl
  | swap a a' as =>
    intro bs hf
    rw [List.mapM_cons, List.mapM_cons] at hf
    obtain ⟨b, hb, hf⟩ := bind_eq_ok.mp hf
    obtain ⟨bs₁, hbs, hf⟩ := bind_eq_ok.mp hf
    obtain ⟨b', hb', hbs⟩ := bind_eq_ok.mp hbs
    obtain ⟨bs₂, hbs₂, hbs⟩ := bind_eq_ok.mp hbs
    cases hbs
    cases hf
    refine ⟨b' :: b :: bs₂, ?_, .swap ..⟩
    rw [List.mapM_cons, List.mapM_cons, hb, hb', hbs₂]
    rfl
  | trans _ _ ih₁ ih₂ =>
    intro bs hf
    obtain ⟨bs₂, hbs₂, hperm₂⟩ := ih₂ hf
    obtain ⟨bs₁, hbs₁, hperm₁⟩ := ih₁ hbs₂
    exact ⟨bs₁, hbs₁, hperm₁.trans hperm₂⟩

/-- A list of computations fails where one of them fails. -/
theorem exists_of_mapM_error {f : α → Except ε β} {e : ε} :
    ∀ {as : List α}, as.mapM f = .error e → ∃ a ∈ as, f a = .error e
  | [], h => by cases h
  | a :: as, h => by
    rw [List.mapM_cons] at h
    cases ha : f a with
    | error e' =>
      rw [ha] at h
      cases h
      exact ⟨a, .head _, ha⟩
    | ok b =>
      cases has : as.mapM f with
      | error e' =>
        rw [ha, has] at h
        cases h
        obtain ⟨a', hm, ha'⟩ := exists_of_mapM_error has
        exact ⟨a', .tail _ hm, ha'⟩
      | ok bs =>
        rw [ha, has] at h
        cases h

/-- In a list whose values under `f` are distinct, a value comes from one element. -/
theorem eq_of_nodup_filterMap {f : α → Option β} {value : β} {a b : α} :
    ∀ {l : List α}, (l.filterMap f).Nodup → a ∈ l → b ∈ l → f a = some value → f b = some value →
      a = b
  | c :: l, hl, ha, hb, hfa, hfb => by
    have hmem : ∀ {d}, d ∈ l → f d = some value → value ∈ l.filterMap f :=
      fun hd hfd => List.mem_filterMap.mpr ⟨_, hd, hfd⟩
    rw [List.filterMap_cons] at hl
    rcases List.mem_cons.mp ha with rfl | ha' <;> rcases List.mem_cons.mp hb with rfl | hb'
    · rfl
    · rw [hfa] at hl
      exact absurd (hmem hb' hfb) (List.nodup_cons.mp hl).1
    · rw [hfb] at hl
      exact absurd (hmem ha' hfa) (List.nodup_cons.mp hl).1
    · refine eq_of_nodup_filterMap ?_ ha' hb' hfa hfb
      split at hl
      · exact hl
      · exact (List.nodup_cons.mp hl).2

/-- A list whose values under `f` are distinct has one element of each of these values. -/
theorem filter_eq_singleton [DecidableEq β] {f : α → β} {l : List α} {a : α}
    (hl : (l.map f).Nodup) (ha : a ∈ l) : l.filter (f · = f a) = [a] := by
  refine List.perm_singleton.mp ((List.perm_ext_iff_of_nodup ?_ (List.nodup_singleton a)).mpr ?_)
  · exact (List.Nodup.of_map f hl).filter _
  · intro b
    rw [List.mem_filter, List.mem_singleton]
    constructor
    · rintro ⟨hb, he⟩
      exact List.inj_on_of_nodup_map hl hb ha (by simpa using he)
    · rintro rfl
      exact ⟨ha, by simp⟩

/-- Nothing that is accessible stands on a circle. -/
theorem not_transGen_of_acc {r : α → α → Prop} {a : α} (h : Acc r a) :
    ¬ Relation.TransGen r a a := by
  induction h with
  | intro a _ ih =>
    intro hc
    obtain ⟨b, hab, hba⟩ := Relation.TransGen.tail'_iff.mp hc
    exact ih b hba (Relation.TransGen.head' hba hab)

namespace Assoc

variable {κ β : Type} [BEq κ] [LawfulBEq κ]

theorem mem_of_lookup {table : List (κ × β)} {key : κ} {value : β}
    (h : table.lookup key = some value) : (key, value) ∈ table := by
  obtain ⟨l₁, l₂, rfl, -⟩ := List.lookup_eq_some_iff.mp h
  simp

theorem lookup_of_mem {table : List (κ × β)} (hk : (keys table).Nodup) {key : κ} {value : β}
    (h : (key, value) ∈ table) : table.lookup key = some value := by
  obtain ⟨l₁, l₂, rfl⟩ := List.append_of_mem h
  refine List.lookup_eq_some_iff.mpr ⟨l₁, l₂, rfl, fun p hp => ?_⟩
  simp only [keys, List.map_append, List.map_cons, List.nodup_append] at hk
  have hne := hk.2.2 p.1 (List.mem_map_of_mem hp) key (by simp)
  simpa [bne_iff_ne] using fun e : key = p.1 => hne e.symm

theorem lookup_isSome_of_mem {table : List (κ × β)} {key : κ} {value : β}
    (h : (key, value) ∈ table) : (table.lookup key).isSome := by
  rw [List.lookup_isSome_iff]
  exact ⟨_, h, by simp⟩

theorem lookup_set [DecidableEq κ] (key a : κ) (value : β) :
    ∀ table : List (κ × β), (set key value table).lookup a =
      if a = key then some value else table.lookup a
  | [] => by
    by_cases h : a = key <;> simp [set, h]
  | (k, v) :: table => by
    by_cases hk : k = key
    · subst hk
      by_cases h : a = k
      · subst h; simp [set]
      · have : (a == k) = false := by simpa using h
        simp [set, List.lookup_cons, this, h]
    · have hk' : (k == key) = false := by simpa using hk
      simp only [set, hk', Bool.false_eq_true, if_false, List.lookup_cons,
        lookup_set key a value table]
      by_cases h : a = k
      · subst h
        simp [hk]
      · have : (a == k) = false := by simpa using h
        simp [this]

theorem set_of_not_mem {key : κ} {value : β} {table : List (κ × β)} (h : key ∉ keys table) :
    set key value table = table ++ [(key, value)] := by
  induction table with
  | nil => rfl
  | cons e table ih =>
    simp only [keys, List.map_cons, List.mem_cons, not_or] at h
    have hne : (e.1 == key) = false := by simpa using fun he => h.1 he.symm
    rw [set, hne, ih h.2]
    rfl

/-- What is left of a table of the keys of a class. -/
theorem lookup_filter (p : κ → Bool) (key : κ) (table : List (κ × β)) :
    (table.filter (p ·.1)).lookup key = if p key then table.lookup key else none := by
  induction table with
  | nil => simp
  | cons e table ih =>
    obtain ⟨k, v⟩ := e
    cases hk : key == k with
    | true =>
      obtain rfl := eq_of_beq hk
      cases hp : p key with
      | true => simp [hp]
      | false =>
        rw [List.filter_cons_of_neg (by simp [hp]), ih, hp]
        rfl
    | false =>
      rw [List.lookup_cons, hk, ← ih, List.filter_cons]
      split
      · rw [List.lookup_cons, hk]
      · rfl

/-- Setting a key leaves the entries of the other keys in their places. -/
theorem filter_set {p : κ → Bool} {key : κ} {value : β} (hp : p key = false) :
    ∀ table : List (κ × β), (set key value table).filter (p ·.1) = table.filter (p ·.1)
  | [] => by simp [set, hp]
  | e :: table => by
    rw [set]
    split
    case isTrue he => simp [eq_of_beq he, hp]
    case isFalse => rw [List.filter_cons, List.filter_cons, filter_set hp table]

theorem mem_set {key : κ} {value : β} {table : List (κ × β)} {e : κ × β}
    (h : e ∈ set key value table) : e = (key, value) ∨ e ∈ table := by
  induction table with
  | nil => exact .inl (List.mem_singleton.mp h)
  | cons d table ih =>
    rw [set] at h
    split at h
    case isTrue hk =>
      rcases List.mem_cons.mp h with rfl | h
      · exact .inl (by rw [eq_of_beq hk])
      · exact .inr (List.mem_cons_of_mem _ h)
    case isFalse hk =>
      rcases List.mem_cons.mp h with rfl | h
      · exact .inr List.mem_cons_self
      · exact (ih h).imp_right (List.mem_cons_of_mem _)

theorem nodup_keys_set {key : κ} {value : β} {table : List (κ × β)} (h : (keys table).Nodup) :
    (keys (set key value table)).Nodup := by
  induction table with
  | nil => simp [set, keys]
  | cons d table ih =>
    obtain ⟨hd, hrest⟩ := List.nodup_cons.mp h
    rw [set]
    split
    case isTrue => exact h
    case isFalse hk =>
      refine List.nodup_cons.mpr ⟨fun hmem => ?_, ih hrest⟩
      obtain ⟨e, he, hkey⟩ := List.mem_map.mp hmem
      rcases mem_set he with rfl | he
      · exact hk (by simpa using hkey.symm)
      · exact hd (List.mem_map.mpr ⟨e, he, hkey⟩)

/-- Setting entries with new keys puts them at the end. -/
theorem merge_of_nodup {old news : List (κ × β)} (h : (keys (old ++ news)).Nodup) :
    merge old news = old ++ news := by
  induction news generalizing old with
  | nil => simp [merge]
  | cons e news ih =>
    have hnew : e.1 ∉ keys old := by
      simp only [keys, List.map_append, List.map_cons, List.nodup_append] at h
      exact fun hmem => h.2.2 _ hmem _ List.mem_cons_self rfl
    rw [List.append_cons] at h
    change merge (set e.1 e.2 old) news = _
    rw [set_of_not_mem hnew, ih h, ← List.append_cons]

theorem merge_nil {table : List (κ × β)} (h : (keys table).Nodup) : merge [] table = table :=
  merge_of_nodup h

theorem nodup_keys_merge {old news : List (κ × β)} (h : (keys old).Nodup) :
    (keys (merge old news)).Nodup := by
  induction news generalizing old with
  | nil => exact h
  | cons e news ih => exact ih (nodup_keys_set h)

theorem mem_merge {old news : List (κ × β)} {e : κ × β} (h : e ∈ merge old news) :
    e ∈ old ∨ e ∈ news := by
  induction news generalizing old with
  | nil => exact .inl h
  | cons d news ih =>
    rcases ih h with h | h
    · rcases mem_set h with rfl | h
      · exact .inr List.mem_cons_self
      · exact .inl h
    · exact .inr (List.mem_cons_of_mem _ h)

end Assoc

end VisualScript
