/-!
# Finite tables

A table holds one value for each of finitely many keys, and remembers the order in which the keys
were first put. The view is the look-up `Table.get?`: every operation has one equation that says
what it does to it (`get?_put`, `get?_erase`, `get?_filter`, `get?_map`).
-/

namespace DurableFlow

/-- Values under pairwise distinct keys, in the order in which the keys were first put. -/
structure Table (κ α : Type) where
  rows : List (κ × α)
  nodup : (rows.map Prod.fst).Nodup

namespace Table

variable {κ α : Type}

/-- The table without rows. -/
def empty : Table κ α := ⟨[], List.nodup_nil⟩

instance : Inhabited (Table κ α) := ⟨empty⟩

/-- The keys, in the order in which they were first put. -/
def keys (t : Table κ α) : List κ := t.rows.map Prod.fst

/-- The values, in the order of their keys. -/
def values (t : Table κ α) : List α := t.rows.map Prod.snd

/-- How many keys the table has. -/
def size (t : Table κ α) : Nat := t.rows.length

/-- Keeps the rows whose key and value satisfy `p`. -/
def filter (p : κ → α → Bool) (t : Table κ α) : Table κ α where
  rows := t.rows.filter fun r => p r.1 r.2
  nodup := t.nodup.sublist (List.filter_sublist.map Prod.fst)

/-- Changes the values, and leaves the keys. -/
def map {β : Type} (f : α → β) (t : Table κ α) : Table κ β where
  rows := t.rows.map fun r => (r.1, f r.2)
  nodup := by simpa [Function.comp_def] using t.nodup

theorem map_map {β γ : Type} (g : β → γ) (f : α → β) (t : Table κ α) :
    (t.map f).map g = t.map fun a => g (f a) := by
  simp only [map, List.map_map]
  rfl

variable [DecidableEq κ]

/-- The value under a key in a list of rows; the first row decides. -/
def find (k : κ) : List (κ × α) → Option α
  | [] => none
  | (k', a) :: rest => if k' = k then some a else find k rest

/-- The value under a key. -/
def get? (t : Table κ α) (k : κ) : Option α := find k t.rows

/-- Whether the key has a value. -/
def contains (t : Table κ α) (k : κ) : Bool := (t.get? k).isSome

/-- The rows with the value under `k` replaced, or with a new last row. -/
def setRow (k : κ) (a : α) : List (κ × α) → List (κ × α)
  | [] => [(k, a)]
  | (k', a') :: rest => if k' = k then (k', a) :: rest else (k', a') :: setRow k a rest

theorem mem_map_setRow {k x : κ} {a : α} (rows : List (κ × α)) :
    x ∈ (setRow k a rows).map Prod.fst ↔ x = k ∨ x ∈ rows.map Prod.fst := by
  induction rows with
  | nil => simp [setRow]
  | cons r rest ih => grind [setRow]

theorem nodup_setRow {k : κ} {a : α} (rows : List (κ × α)) (h : (rows.map Prod.fst).Nodup) :
    ((setRow k a rows).map Prod.fst).Nodup := by
  induction rows with
  | nil => simp [setRow]
  | cons r rest ih =>
    obtain ⟨k', a'⟩ := r
    rw [List.map_cons, List.nodup_cons] at h
    by_cases hk : k' = k
    · rw [setRow, if_pos hk, List.map_cons, List.nodup_cons]
      exact h
    · rw [setRow, if_neg hk, List.map_cons, List.nodup_cons]
      refine ⟨fun hm => ?_, ih h.2⟩
      exact (mem_map_setRow rest |>.1 hm).elim hk h.1

/-- Puts a value under a key, in place of an earlier one. -/
def put (t : Table κ α) (k : κ) (a : α) : Table κ α := ⟨setRow k a t.rows, nodup_setRow _ t.nodup⟩

/-- Removes a key and its value. -/
def erase (t : Table κ α) (k : κ) : Table κ α := t.filter fun k' _ => decide (k' ≠ k)

/-- The table with the rows put one after the other. -/
def ofList (rows : List (κ × α)) : Table κ α := rows.foldl (fun t r => t.put r.1 r.2) empty

/-- Of records with keys of their own, one alone has the key of a record. -/
theorem filter_key_eq {ρ : Type} {f : ρ → κ} {records : List ρ} {r : ρ}
    (h : (records.map f).Nodup) (hr : r ∈ records) :
    records.filter (fun s => decide (f s = f r)) = [r] := by
  induction records with
  | nil => cases hr
  | cons s rest ih =>
    rw [List.map_cons, List.nodup_cons] at h
    obtain rfl | hr := List.mem_cons.1 hr
    · have hnone : rest.filter (fun s' => decide (f s' = f r)) = [] :=
        List.filter_eq_nil_iff.2 fun s' hs' heq =>
          h.1 (of_decide_eq_true heq ▸ List.mem_map_of_mem hs')
      rw [List.filter_cons_of_pos (by simp), hnone]
    · have hne : f s ≠ f r := fun heq => h.1 (heq ▸ List.mem_map_of_mem hr)
      rw [List.filter_cons_of_neg (by simpa using hne), ih h.2 hr]

/-! ## The view -/

theorem find_setRow (k x : κ) (a : α) (rows : List (κ × α)) :
    find x (setRow k a rows) = if x = k then some a else find x rows := by
  induction rows with
  | nil => grind [find, setRow]
  | cons r rest ih => grind [find, setRow]

theorem find_eq_none {k : κ} {rows : List (κ × α)} (h : k ∉ rows.map Prod.fst) :
    find k rows = none := by
  induction rows with
  | nil => rfl
  | cons r rest ih => grind [find]

theorem find_filter (p : κ → α → Bool) (k : κ) (rows : List (κ × α))
    (h : (rows.map Prod.fst).Nodup) :
    find k (rows.filter fun r => p r.1 r.2) = (find k rows).filter (p k) := by
  induction rows with
  | nil => rfl
  | cons r rest ih =>
    obtain ⟨k', a'⟩ := r
    rw [List.map_cons, List.nodup_cons] at h
    have ih := ih h.2
    by_cases hk : k' = k
    · subst hk
      have hn : find k' rest = none := find_eq_none h.1
      by_cases hp : p k' a' <;> simp_all [find, Option.filter]
    · by_cases hp : p k' a' <;> simp_all [find]

theorem find_map {β : Type} (f : α → β) (k : κ) (rows : List (κ × α)) :
    find k (rows.map fun r => (r.1, f r.2)) = (find k rows).map f := by
  induction rows with
  | nil => rfl
  | cons r rest ih => grind [find]

theorem setRow_map {β : Type} (f : α → β) (k : κ) (a : α) (rows : List (κ × α)) :
    setRow k (f a) (rows.map fun r => (r.1, f r.2)) =
      (setRow k a rows).map fun r => (r.1, f r.2) := by
  induction rows with
  | nil => rfl
  | cons r rest ih => grind [setRow]

@[simp] theorem get?_empty (k : κ) : (empty : Table κ α).get? k = none := rfl

theorem get?_put (t : Table κ α) (k x : κ) (a : α) :
    (t.put k a).get? x = if x = k then some a else t.get? x := find_setRow k x a t.rows

@[simp] theorem get?_put_self (t : Table κ α) (k : κ) (a : α) : (t.put k a).get? k = some a := by
  simp [get?_put]

theorem get?_put_of_ne (t : Table κ α) {k x : κ} (a : α) (h : x ≠ k) :
    (t.put k a).get? x = t.get? x := by
  simp [get?_put, h]

theorem get?_filter (t : Table κ α) (p : κ → α → Bool) (k : κ) :
    (t.filter p).get? k = (t.get? k).filter (p k) := find_filter p k t.rows t.nodup

theorem get?_map {β : Type} (f : α → β) (t : Table κ α) (k : κ) :
    (t.map f).get? k = (t.get? k).map f := find_map f k t.rows

theorem map_put {β : Type} (f : α → β) (t : Table κ α) (k : κ) (a : α) :
    (t.put k a).map f = (t.map f).put k (f a) := by
  rw [put, put, mk.injEq]
  exact (setRow_map f k a t.rows).symm

theorem get?_erase (t : Table κ α) (k x : κ) :
    (t.erase k).get? x = if x = k then none else t.get? x := by
  rw [erase, get?_filter]
  by_cases h : x = k <;> cases t.get? x <;> simp [h, Option.filter]

@[simp] theorem get?_erase_self (t : Table κ α) (k : κ) : (t.erase k).get? k = none := by
  simp [get?_erase]

theorem get?_erase_of_ne (t : Table κ α) {k x : κ} (h : x ≠ k) :
    (t.erase k).get? x = t.get? x := by
  simp [get?_erase, h]

end Table

end DurableFlow
