import VisualScript.Script.Scope
import Mathlib.Data.List.Nodup

/-!
# Proofs — Code

Views of a generated body.

* `Code.visits`: the exec nodes in the order of their statements, each with the path of its block.
* `Code.declarations`: the temporaries, each with the path of the block that declares it.
* `Code.locals`, `Code.keys`: the temporaries and the blocks of a body at its own level.  Where
  these differ in the body and in every nested block, a temporary whose block is determined by its
  slot is declared once (`Code.nodup_declarations`).
* `Code.tails`: the parts of a body, all of which are printed (`Code.render_tail`).
-/

namespace VisualScript.Code

@[simp] theorem done_append (d : Code) : done ++ d = d := rfl

@[simp] theorem mark_append (n : String) (is : Inputs) (vs : List String) (c d : Code) :
    mark n is vs c ++ d = mark n is vs (c ++ d) := rfl

@[simp] theorem line_append (t : Expr) (c d : Code) : line t c ++ d = line t (c ++ d) := rfl

@[simp] theorem declare_append (s : Endpoint) (v : String) (e : Expr) (c d : Code) :
    declare s v e c ++ d = declare s v e (c ++ d) := rfl

@[simp] theorem block_append (k : BlockKey) (b c d : Code) :
    block k b c ++ d = block k b (c ++ d) := rfl

@[simp] theorem thread_append (k : BlockKey) (n : String) (cs : List String) (b c d : Code) :
    thread k n cs b c ++ d = thread k n cs b (c ++ d) := rfl

@[simp] theorem append_done (c : Code) : c ++ done = c := by
  induction c <;> simp_all

theorem append_assoc (c d e : Code) : c ++ d ++ e = c ++ (d ++ e) := by
  induction c <;> simp_all

/-- A body that holds declarations only. -/
def Flat : Code → Prop
  | done               => True
  | declare _ _ _ rest => Flat rest
  | _                  => False

/-- The exec nodes of a body at a path, each with the path of its block. -/
def visits (path : Path) : Code → List (Path × String)
  | done                  => []
  | mark id _ _ rest      => (path, id) :: visits path rest
  | line _ rest           => visits path rest
  | declare _ _ _ rest    => visits path rest
  | block k body rest     => visits (path ++ [k]) body ++ visits path rest
  | thread k _ _ body rest => visits (path ++ [k]) body ++ visits path rest

/-- The temporaries of a body at a path, each with the path of its block. -/
def declarations (path : Path) : Code → List (Path × Endpoint)
  | done                  => []
  | mark _ _ _ rest       => declarations path rest
  | line _ rest           => declarations path rest
  | declare slot _ _ rest => (path, slot) :: declarations path rest
  | block k body rest     => declarations (path ++ [k]) body ++ declarations path rest
  | thread k _ _ body rest => declarations (path ++ [k]) body ++ declarations path rest

/-- The temporaries a body declares outside its nested blocks. -/
def locals : Code → List Endpoint
  | done                  => []
  | mark _ _ _ rest       => locals rest
  | line _ rest           => locals rest
  | declare slot _ _ rest => slot :: locals rest
  | block _ _ rest        => locals rest
  | thread _ _ _ _ rest   => locals rest

/-- The blocks that follow one another in a body. -/
def keys : Code → List BlockKey
  | done                => []
  | mark _ _ _ rest     => keys rest
  | line _ rest         => keys rest
  | declare _ _ _ rest  => keys rest
  | block k _ rest      => k :: keys rest
  | thread k _ _ _ rest => k :: keys rest

/-- The parts of a body from one of its statements on, those of its blocks and threads included. -/
def tails : Code → List Code
  | done                    => [done]
  | mark n is vs rest       => mark n is vs rest :: tails rest
  | line t rest             => line t rest :: tails rest
  | declare s x v rest      => declare s x v rest :: tails rest
  | block k body rest       => block k body rest :: (tails body ++ tails rest)
  | thread k n cs body rest => thread k n cs body rest :: (tails body ++ tails rest)

/-- Every nested block has the property. -/
def Nested (P : Code → Prop) : Code → Prop
  | done                   => True
  | mark _ _ _ rest        => Nested P rest
  | line _ rest            => Nested P rest
  | declare _ _ _ rest     => Nested P rest
  | block _ body rest      => (P body ∧ Nested P body) ∧ Nested P rest
  | thread _ _ _ body rest => (P body ∧ Nested P body) ∧ Nested P rest

/-! ### Appending -/

@[simp] theorem flat_append (c d : Code) : (c ++ d).Flat ↔ c.Flat ∧ d.Flat := by
  induction c <;> simp_all [Flat]

@[simp] theorem visits_append (path : Path) (c d : Code) :
    (c ++ d).visits path = c.visits path ++ d.visits path := by
  induction c generalizing path <;> simp_all [visits]

@[simp] theorem declarations_append (path : Path) (c d : Code) :
    (c ++ d).declarations path = c.declarations path ++ d.declarations path := by
  induction c generalizing path <;> simp_all [declarations]

@[simp] theorem locals_append (c d : Code) : (c ++ d).locals = c.locals ++ d.locals := by
  induction c <;> simp_all [locals]

@[simp] theorem keys_append (c d : Code) : (c ++ d).keys = c.keys ++ d.keys := by
  induction c <;> simp_all [keys]

@[simp] theorem nested_append (P : Code → Prop) (c d : Code) :
    (c ++ d).Nested P ↔ c.Nested P ∧ d.Nested P := by
  induction c <;> simp_all [Nested, and_assoc]

@[simp] theorem visits_ofLines (path : Path) (ls : List String) :
    (ofLines ls).visits path = [] := by
  induction ls <;> simp_all [ofLines, visits]

@[simp] theorem declarations_ofLines (path : Path) (ls : List String) :
    (ofLines ls).declarations path = [] := by
  induction ls <;> simp_all [ofLines, declarations]

@[simp] theorem locals_ofLines (ls : List String) : (ofLines ls).locals = [] := by
  induction ls <;> simp_all [ofLines, locals]

@[simp] theorem keys_ofLines (ls : List String) : (ofLines ls).keys = [] := by
  induction ls <;> simp_all [ofLines, keys]

@[simp] theorem nested_ofLines (P : Code → Prop) (ls : List String) : (ofLines ls).Nested P := by
  induction ls <;> simp_all [ofLines, Nested]

/-! ### Flat bodies -/

theorem Flat.visits_eq {path : Path} : ∀ {c : Code}, c.Flat → c.visits path = []
  | .done, _ => rfl
  | .declare _ _ _ rest, h => by
    have h : rest.Flat := h
    exact h.visits_eq

theorem Flat.keys_eq : ∀ {c : Code}, c.Flat → c.keys = []
  | .done, _ => rfl
  | .declare _ _ _ rest, h => by
    have h : rest.Flat := h
    exact h.keys_eq

theorem Flat.nested {P : Code → Prop} : ∀ {c : Code}, c.Flat → c.Nested P
  | .done, _ => trivial
  | .declare _ _ _ rest, h => by
    have h : rest.Flat := h
    exact h.nested

/-! ### One declaration per temporary -/

/-- A declaration is one of the body itself or stands in one of its blocks. -/
theorem mem_declarations {path q : Path} {slot : Endpoint} {c : Code}
    (h : (q, slot) ∈ c.declarations path) :
    (q = path ∧ slot ∈ c.locals) ∨ ∃ k ∈ c.keys, path ++ [k] <+: q := by
  induction c generalizing path with
  | done => simp [declarations] at h
  | mark _ _ _ rest ih | line _ rest ih => exact ih h
  | declare s _ _ rest ih =>
    rcases List.mem_cons.mp h with h | h
    · cases h
      exact .inl ⟨rfl, .head _⟩
    · exact (ih h).imp_left fun h => ⟨h.1, .tail _ h.2⟩
  | block k body rest ihb ih | thread k _ _ body rest ihb ih =>
    rcases List.mem_append.mp h with h | h
    · refine .inr ⟨k, .head _, ?_⟩
      rcases ihb h with ⟨rfl, -⟩ | ⟨k', -, hp⟩
      · exact List.prefix_rfl
      · exact (List.prefix_append _ _).trans hp
    · exact (ih h).imp_right fun ⟨k', hk', hp⟩ => ⟨k', .tail _ hk', hp⟩

theorem mem_declarations_of_mem_locals {path : Path} {slot : Endpoint} {c : Code}
    (h : slot ∈ c.locals) : (path, slot) ∈ c.declarations path := by
  induction c with
  | done => cases h
  | mark _ _ _ rest ih | line _ rest ih => exact ih h
  | declare s _ _ rest ih =>
    rcases List.mem_cons.mp h with rfl | h
    · exact .head _
    · exact .tail _ (ih h)
  | block k body rest _ ih | thread k _ _ body rest _ ih => exact List.mem_append_right _ (ih h)

theorem not_nested_in_self {path : Path} {k : BlockKey} : ¬ path ++ [k] <+: path := fun h => by
  have := h.length_le
  rw [List.length_append, List.length_singleton] at this
  omega

/-- Sibling blocks have different paths. -/
theorem key_of_nested {path q : Path} {k k' : BlockKey} (h : path ++ [k] <+: q)
    (h' : path ++ [k'] <+: q) : k = k' := by
  have := (List.prefix_of_prefix_length_le h h' (by simp)).eq_of_length (by simp)
  simpa using this

/-- A block and what follows it have no temporary in common. -/
theorem disjoint_declarations {path : Path} {k : BlockKey} {body rest : Code} (hk : k ∉ rest.keys)
    (hfun : ∀ q q' slot, (q, slot) ∈ body.declarations (path ++ [k]) →
      (q', slot) ∈ rest.declarations path → q = q') :
    ∀ a ∈ (body.declarations (path ++ [k])).map Prod.snd,
      ∀ b ∈ (rest.declarations path).map Prod.snd, a ≠ b := by
  rintro a ha b hb rfl
  obtain ⟨⟨q, slot⟩, hq, rfl⟩ := List.mem_map.mp ha
  obtain ⟨⟨q', slot'⟩, hq', he⟩ := List.mem_map.mp hb
  cases he
  obtain rfl := hfun q q' slot hq hq'
  have hin : path ++ [k] <+: q := by
    rcases mem_declarations hq with ⟨rfl, -⟩ | ⟨k', -, hp⟩
    · exact List.prefix_rfl
    · exact (List.prefix_append _ _).trans hp
  rcases mem_declarations hq' with ⟨rfl, -⟩ | ⟨k', hk', hp⟩
  · exact not_nested_in_self hin
  · exact hk (key_of_nested hin hp ▸ hk')

/-- **One declaration.**  Where the temporaries of a block differ, and so do the blocks that follow
one another, a temporary that can only stand in one block is declared once. -/
theorem nodup_declarations {c : Code} (path : Path) (hlocals : c.locals.Nodup)
    (hkeys : c.keys.Nodup) (hnl : c.Nested fun b => b.locals.Nodup)
    (hnk : c.Nested fun b => b.keys.Nodup)
    (hfun : ∀ q q' slot, (q, slot) ∈ c.declarations path →
      (q', slot) ∈ c.declarations path → q = q') :
    ((c.declarations path).map Prod.snd).Nodup := by
  induction c generalizing path with
  | done => simp [declarations]
  | mark _ _ _ rest ih | line _ rest ih => exact ih path hlocals hkeys hnl hnk hfun
  | declare s _ _ rest ih =>
    obtain ⟨hs, hlocals⟩ := List.nodup_cons.mp hlocals
    refine List.nodup_cons.mpr ⟨fun hm => ?_, ih path hlocals hkeys hnl hnk
      fun q q' slot hq hq' =>
      hfun q q' slot (.tail _ hq) (.tail _ hq')⟩
    obtain ⟨⟨q, slot⟩, hq, rfl⟩ := List.mem_map.mp hm
    obtain rfl := hfun path q slot (.head _) (.tail _ hq)
    rcases mem_declarations hq with ⟨-, hq⟩ | ⟨k, -, hp⟩
    · exact hs hq
    · exact not_nested_in_self hp
  | block k body rest ihb ih | thread k _ _ body rest ihb ih =>
    obtain ⟨hk, hkeys⟩ := List.nodup_cons.mp hkeys
    obtain ⟨⟨hbl, hnbl⟩, hnl⟩ := hnl
    obtain ⟨⟨hbk, hnbk⟩, hnk⟩ := hnk
    rw [declarations, List.map_append]
    refine List.nodup_append.mpr ⟨ihb (path ++ [k]) hbl hbk hnbl hnbk ?_,
      ih path hlocals hkeys hnl hnk ?_, disjoint_declarations hk ?_⟩
    · exact fun q q' slot hq hq' =>
        hfun q q' slot (List.mem_append_left _ hq) (List.mem_append_left _ hq')
    · exact fun q q' slot hq hq' =>
        hfun q q' slot (List.mem_append_right _ hq) (List.mem_append_right _ hq')
    · exact fun q q' slot hq hq' =>
        hfun q q' slot (List.mem_append_left _ hq) (List.mem_append_right _ hq')

/-! ### What is printed -/

theorem thread_mem_tails {t : ThreadFunction} {c : Code} (h : t ∈ c.threads) :
    ∃ key rest, thread key t.name t.captures t.body rest ∈ c.tails := by
  induction c with
  | done => cases h
  | mark _ _ _ _ ih | line _ _ ih | declare _ _ _ _ ih =>
    obtain ⟨key, rest, hm⟩ := ih h
    exact ⟨key, rest, .tail _ hm⟩
  | block _ _ _ ihbody ihrest =>
    rcases List.mem_append.mp h with h | h
    · obtain ⟨key, rest, hm⟩ := ihbody h
      exact ⟨key, rest, .tail _ (List.mem_append_left _ hm)⟩
    · obtain ⟨key, rest, hm⟩ := ihrest h
      exact ⟨key, rest, .tail _ (List.mem_append_right _ hm)⟩
  | thread k _ _ _ tail ihbody ihrest =>
    rcases List.mem_append.mp h with h | h
    · obtain ⟨key, rest, hm⟩ := ihbody h
      exact ⟨key, rest, .tail _ (List.mem_append_left _ hm)⟩
    rcases List.mem_cons.mp h with rfl | h
    · exact ⟨k, tail, .head _⟩
    · obtain ⟨key, rest, hm⟩ := ihrest h
      exact ⟨key, rest, .tail _ (List.mem_append_right _ hm)⟩

theorem declare_mem_tails {path q : Path} {slot : Endpoint} {c : Code}
    (h : (q, slot) ∈ c.declarations path) :
    ∃ var value rest, declare slot var value rest ∈ c.tails := by
  induction c generalizing path with
  | done => cases h
  | mark _ _ _ _ ih | line _ _ ih =>
    obtain ⟨var, value, rest, hm⟩ := ih h
    exact ⟨var, value, rest, .tail _ hm⟩
  | declare s x v tail ih =>
    rcases List.mem_cons.mp h with he | h
    · cases he
      exact ⟨x, v, tail, .head _⟩
    · obtain ⟨var, value, rest, hm⟩ := ih h
      exact ⟨var, value, rest, .tail _ hm⟩
  | block _ _ _ ihbody ihrest | thread _ _ _ _ _ ihbody ihrest =>
    rcases List.mem_append.mp h with h | h
    · obtain ⟨var, value, rest, hm⟩ := ihbody h
      exact ⟨var, value, rest, .tail _ (List.mem_append_left _ hm)⟩
    · obtain ⟨var, value, rest, hm⟩ := ihrest h
      exact ⟨var, value, rest, .tail _ (List.mem_append_right _ hm)⟩

/-- What is printed for a part of a body is printed for the body, or for a thread in it. -/
theorem render_tail (indent : String) {d : Code} : ∀ {c : Code} (depth : Nat), d ∈ c.tails →
    ∃ k, d.render indent k ⊆ c.render indent depth ∨
      ∃ u ∈ c.threads, d.render indent k ⊆ u.body.render indent 1
  | .done, depth, h => ⟨depth, .inl (List.mem_singleton.mp h ▸ List.Subset.refl _)⟩
  | .mark _ _ _ rest, depth, h => by
    rcases List.mem_cons.mp h with rfl | h
    · exact ⟨depth, .inl (List.Subset.refl _)⟩
    · exact render_tail indent (c := rest) depth h
  | .line _ rest, depth, h | .declare _ _ _ rest, depth, h => by
    rcases List.mem_cons.mp h with rfl | h
    · exact ⟨depth, .inl (List.Subset.refl _)⟩
    · obtain ⟨k, hk⟩ := render_tail indent (c := rest) depth h
      exact ⟨k, hk.imp_left (List.Subset.trans · (List.subset_cons_self _ _))⟩
  | .block _ body rest, depth, h => by
    rcases List.mem_cons.mp h with rfl | h
    · exact ⟨depth, .inl (List.Subset.refl _)⟩
    rcases List.mem_append.mp h with h | h
    · obtain ⟨k, hk⟩ := render_tail indent (depth + 1) h
      exact ⟨k, hk.imp (List.Subset.trans · (List.subset_append_left _ _)) fun ⟨u, hu, hs⟩ =>
        ⟨u, List.mem_append_left _ hu, hs⟩⟩
    · obtain ⟨k, hk⟩ := render_tail indent depth h
      exact ⟨k, hk.imp (List.Subset.trans · (List.subset_append_right _ _)) fun ⟨u, hu, hs⟩ =>
        ⟨u, List.mem_append_right _ hu, hs⟩⟩
  | .thread _ name captures body rest, depth, h => by
    rcases List.mem_cons.mp h with rfl | h
    · exact ⟨depth, .inl (List.Subset.refl _)⟩
    rcases List.mem_append.mp h with h | h
    · -- inside the thread function, which stands at depth 1
      obtain ⟨k, hs | ⟨u, hu, hs⟩⟩ := render_tail indent 1 h
      · exact ⟨k, .inr ⟨⟨name, captures, body⟩, List.mem_append_right _ (.head _), hs⟩⟩
      · exact ⟨k, .inr ⟨u, List.mem_append_left _ hu, hs⟩⟩
    · obtain ⟨k, hk⟩ := render_tail indent depth h
      exact ⟨k, hk.imp (List.Subset.trans · (List.subset_cons_self _ _)) fun ⟨u, hu, hs⟩ =>
        ⟨u, List.mem_append_right _ (.tail _ hu), hs⟩⟩

end VisualScript.Code
