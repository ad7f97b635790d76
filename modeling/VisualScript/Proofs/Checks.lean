import VisualScript.Record.Check
import VisualScript.Proofs.Tables

/-!
# Proofs — Checks

What checking a JSON value gives when the issues are left aside (`Checked.value?`): one lemma for
each way to put checks together, and for lists and tables that were written element by element.
-/

namespace VisualScript

namespace Checked

variable {α β : Type}

/-- The value, if there is no issue. -/
def value? : Checked α → Option α
  | .valid a   => some a
  | .invalid _ => none

@[simp] theorem value?_valid (a : α) : (valid a).value? = some a := rfl

@[simp] theorem value?_fail (kind : IssueKind) : (fail kind : Checked α).value? = none := rfl

@[simp] theorem value?_within (step : PathStep) (x : Checked α) :
    (x.within step).value? = x.value? := by
  cases x <;> rfl

@[simp] theorem value?_map (f : α → β) (x : Checked α) : (x.map f).value? = x.value?.map f := by
  cases x <;> rfl

@[simp] theorem value?_functor (f : α → β) (x : Checked α) : (f <$> x).value? = x.value?.map f :=
  value?_map f x

@[simp] theorem value?_apply (f : Checked (α → β)) (x : Checked α) :
    (f.apply x).value? = f.value?.bind fun g => x.value?.map g := by
  cases f <;> cases x <;> rfl

@[simp] theorem value?_seq (f : Checked (α → β)) (x : Checked α) :
    (f <*> x).value? = f.value?.bind fun g => x.value?.map g :=
  value?_apply f x

@[simp] theorem value?_andThen (x : Checked α) (f : α → Checked β) :
    (x.andThen f).value? = x.value?.bind fun a => (f a).value? := by
  cases x <;> rfl

/-- Elements that are each restored or refused: the list is restored if none is refused. -/
theorem value?_all {γ : Type} {check : α → Checked β} {toItem : γ → α} {accepts : γ → Bool}
    {result : γ → β} : ∀ {cs : List γ},
      (∀ c ∈ cs, (check (toItem c)).value? = if accepts c then some (result c) else none) →
        (all check (cs.map toItem)).value? = if cs.all accepts then some (cs.map result) else none
  | [], _ => rfl
  | c :: cs, h => by
    rw [List.map_cons, all, value?_apply, value?_map, h c List.mem_cons_self,
      value?_all fun d hd => h d (List.mem_cons_of_mem _ hd), List.all_cons]
    cases accepts c <;> cases cs.all accepts <;> rfl

end Checked

namespace Check

variable {α β : Type} {check : Json → Checked β} {toJson : α → Json} {accepts : α → Bool}
  {result : α → β}

theorem value?_list {xs : List α}
    (h : ∀ x ∈ xs, (check (toJson x)).value? = if accepts x then some (result x) else none) :
    (list check (.arr (xs.map toJson))).value? =
      if xs.all accepts then some (xs.map result) else none := by
  have hall := @Checked.value?_all _ _ _
    (fun p : Json × Nat => (check p.1).within (.index p.2)) (fun p : α × Nat => (toJson p.1, p.2))
    (fun p => accepts p.1) (fun p => result p.1) xs.zipIdx fun p hp => by
      rw [Checked.value?_within, h _ (List.fst_mem_of_mem_zipIdx hp)]
  have hfst : xs.zipIdx.map Prod.fst = xs := List.zipIdx_map_fst 0 xs
  have hacc : xs.zipIdx.all (fun p => accepts p.1) = xs.all accepts := by
    conv_rhs => rw [← hfst, List.all_map]
    rfl
  have hres : xs.zipIdx.map (fun p => result p.1) = xs.map result := by
    conv_rhs => rw [← hfst, List.map_map]
    rfl
  rw [list, List.zipIdx_map]
  rw [hacc, hres] at hall
  exact hall

theorem value?_table {es : List (String × α)} (hk : (Assoc.keys es).Nodup)
    (h : ∀ e ∈ es, (check (toJson e.2)).value? = if accepts e.2 then some (result e.2) else none) :
    (table check (.obj (es.map fun e => (e.1, toJson e.2)))).value? =
      if es.all (fun e => accepts e.2) then some (es.map fun e => (e.1, result e.2)) else none := by
  have hall := @Checked.value?_all _ _ _
    (fun e : String × Json => ((check e.2).within (.key e.1)).map fun a => (e.1, a))
    (fun e : String × α => (e.1, toJson e.2)) (fun e => accepts e.2) (fun e => (e.1, result e.2)) es
    fun e he => by
      rw [Checked.value?_map, Checked.value?_within, h e he]
      cases accepts e.2 <;> rfl
  rw [table, Checked.value?_map, hall]
  split
  · rw [Option.map_some, Assoc.merge_nil]
    simpa [Assoc.keys, Function.comp_def] using hk
  · rfl

theorem value?_nullable {v : Json} (h : v ≠ .null) :
    (nullable check v).value? = (check v).value?.map some := by
  cases v with
  | null => exact absurd rfl h
  | _ => exact Checked.value?_map _ _

/-! ### Records -/

@[simp] theorem value?_record (check : Fields → Checked α) (fs : Fields) :
    (record check (.obj fs)).value? = (check fs).value? := rfl

theorem value?_field (fs : Fields) (keys : List String) (check : Json → Checked α) :
    (field fs keys check).value? = (find? fs keys).bind fun e => (check e.2).value? := by
  rw [field]
  cases find? fs keys with
  | none => rfl
  | some e => exact Checked.value?_within _ _

theorem value?_fieldOr (fs : Fields) (keys : List String) (default : α)
    (check : Json → Checked α) :
    (fieldOr fs keys default check).value? =
      (find? fs keys).elim (some default) fun e => (check e.2).value? := by
  rw [fieldOr]
  cases find? fs keys with
  | none => rfl
  | some e => exact Checked.value?_within _ _

/-- A field is found by the first of its names, if no entry behind the fields has that name. -/
theorem find?_append {fs extra : Fields} {key : String} {v : Json} (hkey : key ∉ Assoc.keys extra)
    (h : fs.reverse.lookup key = some v) (others : List String) :
    find? (fs ++ extra) (key :: others) = some (key, v) := by
  have hextra : extra.reverse.lookup key = none := by
    rw [List.lookup_eq_none_iff]
    rintro e he
    simp only [bne_iff_ne, ne_eq]
    rintro rfl
    exact hkey (List.mem_map_of_mem (List.mem_reverse.mp he))
  rw [find?, List.findSome?_cons, List.reverse_append, List.lookup_append, hextra, h]
  rfl

@[simp] theorem value?_text (s : String) : (text (.str s)).value? = some s := rfl

@[simp] theorem value?_bool (b : Bool) : (Check.bool (.bool b)).value? = some b := rfl

end Check

end VisualScript
