import Mathlib

/-!
# Tables with ordered keys

A table of an ordered key-value store: entries in the order of their keys, each key once.  Two tables
with the same values are equal, so that a write that changes nothing is no write.

## Main definitions

* `Lib.Table` — the entries of a store, sorted by key.
* `Lib.Table.get`, `set`, `erase`, `keep` — reading and writing one key, and clearing a range.
* `Lib.Table.scan` — the entries of a range, in order.

## Main results

* `Lib.Table.ext` — a table is determined by its values.
* `Lib.Table.get_set`, `get_erase`, `get_keep` — what a write changes.
* `Lib.Table.mem_scan` — a scan returns the entries of its range, each once.
-/

namespace Tack.Lib

variable {K V : Type*} [LinearOrder K]

/-- The entries of a store in the order of their keys. -/
structure Table (K V : Type*) [LinearOrder K] where
  entries : List (K × V)
  sorted : entries.Pairwise fun e e' => e.1 < e'.1

namespace Table

/-- The value under a key in a list of entries. -/
def lookup (k : K) : List (K × V) → Option V
  | [] => none
  | e :: es => if e.1 = k then some e.2 else lookup k es

/-- Puts an entry at its place. -/
def insertEntry (k : K) (v : V) : List (K × V) → List (K × V)
  | [] => [(k, v)]
  | e :: es =>
    if k < e.1 then (k, v) :: e :: es
    else if k = e.1 then (k, v) :: es
    else e :: insertEntry k v es

theorem mem_insertEntry {k : K} {v : V} {es : List (K × V)} {e : K × V}
    (h : e ∈ insertEntry k v es) : e = (k, v) ∨ e ∈ es := by
  induction es with
  | nil => exact .inl (List.mem_singleton.mp h)
  | cons a as ih =>
    rw [insertEntry] at h
    split_ifs at h
    · exact (List.mem_cons.mp h)
    · exact (List.mem_cons.mp h).imp_right (List.mem_cons_of_mem a)
    · rcases List.mem_cons.mp h with rfl | h
      · exact .inr List.mem_cons_self
      · exact (ih h).imp_right (List.mem_cons_of_mem a)

theorem sorted_insertEntry {k : K} {v : V} {es : List (K × V)} (h : es.Pairwise fun e e' => e.1 < e'.1) :
    (insertEntry k v es).Pairwise fun e e' => e.1 < e'.1 := by
  induction es with
  | nil => exact List.pairwise_singleton _ _
  | cons a as ih =>
    obtain ⟨hfirst, hrest⟩ := List.pairwise_cons.mp h
    rw [insertEntry]
    split_ifs with hlt heq
    · refine List.pairwise_cons.mpr ⟨fun e he => ?_, h⟩
      rcases List.mem_cons.mp he with rfl | he
      · exact hlt
      · exact hlt.trans (hfirst e he)
    · refine List.pairwise_cons.mpr ⟨fun e he => ?_, hrest⟩
      exact heq ▸ hfirst e he
    · refine List.pairwise_cons.mpr ⟨fun e he => ?_, ih hrest⟩
      rcases mem_insertEntry he with rfl | he
      · exact lt_of_le_of_ne (not_lt.mp hlt) (Ne.symm heq)
      · exact hfirst e he

theorem lookup_insertEntry (k k' : K) (v : V) (es : List (K × V)) :
    lookup k' (insertEntry k v es) = if k = k' then some v else lookup k' es := by
  induction es with
  | nil => rfl
  | cons a as ih =>
    rw [insertEntry]
    by_cases hlt : k < a.1
    · rw [if_pos hlt, lookup]
    · rw [if_neg hlt]
      by_cases heq : k = a.1
      · rw [if_pos heq, lookup, lookup, ← heq]
        split_ifs <;> rfl
      · rw [if_neg heq, lookup, ih, lookup]
        by_cases hk : k = k'
        · rw [if_pos hk, if_pos hk, if_neg fun h => heq (hk.trans h.symm)]
        · rw [if_neg hk, if_neg hk]

theorem lookup_filter (p : K → Bool) (k : K) (es : List (K × V)) :
    lookup k (es.filter fun e => p e.1) = if p k then lookup k es else none := by
  induction es with
  | nil => simp [lookup]
  | cons a as ih =>
    by_cases ha : a.1 = k
    · subst ha
      cases hp : p a.1 <;> simp [lookup, ih, hp]
    · cases hp : p a.1 <;> simp [lookup, ih, hp, ha]

theorem lookup_eq_some_of_mem {es : List (K × V)} (h : es.Pairwise fun e e' => e.1 < e'.1)
    {e : K × V} (he : e ∈ es) : lookup e.1 es = some e.2 := by
  induction es with
  | nil => cases he
  | cons a as ih =>
    obtain ⟨hfirst, hrest⟩ := List.pairwise_cons.mp h
    rcases List.mem_cons.mp he with rfl | he
    · rw [lookup, if_pos rfl]
    · rw [lookup, if_neg (hfirst e he).ne, ih hrest he]

theorem mem_of_lookup_eq_some {es : List (K × V)} {k : K} {v : V} (h : lookup k es = some v) :
    (k, v) ∈ es := by
  induction es with
  | nil => cases h
  | cons a as ih =>
    rw [lookup] at h
    split_ifs at h with hk
    · obtain rfl := Option.some.inj h
      exact hk ▸ List.mem_cons_self
    · exact List.mem_cons_of_mem a (ih h)

/-! ### Operations -/

def empty : Table K V := ⟨[], .nil⟩

def get (t : Table K V) (k : K) : Option V := lookup k t.entries

def set (t : Table K V) (k : K) (v : V) : Table K V :=
  ⟨insertEntry k v t.entries, sorted_insertEntry t.sorted⟩

/-- Keeps the keys of a set and clears the others. -/
def keep (t : Table K V) (p : K → Bool) : Table K V :=
  ⟨t.entries.filter fun e => p e.1, t.sorted.filter _⟩

def erase (t : Table K V) (k : K) : Table K V := t.keep fun k' => decide (k' ≠ k)

/-- The entries of a range in the order of their keys. -/
def scan (t : Table K V) (p : K → Bool) : List (K × V) := t.entries.filter fun e => p e.1

/-- Changes every value. -/
def map {W : Type*} (f : V → W) (t : Table K V) : Table K W :=
  ⟨t.entries.map fun e => (e.1, f e.2), List.pairwise_map.mpr t.sorted⟩

variable {t t' : Table K V} {k k' : K} {v : V} {p : K → Bool}

@[simp] theorem get_empty (k : K) : (empty : Table K V).get k = none := rfl

@[simp] theorem scan_empty (p : K → Bool) : (empty : Table K V).scan p = [] := rfl

theorem get_set (t : Table K V) (k k' : K) (v : V) :
    (t.set k v).get k' = if k = k' then some v else t.get k' :=
  lookup_insertEntry k k' v t.entries

@[simp] theorem get_set_self (t : Table K V) (k : K) (v : V) : (t.set k v).get k = some v := by
  rw [get_set, if_pos rfl]

theorem get_set_ne (t : Table K V) (v : V) (h : k ≠ k') : (t.set k v).get k' = t.get k' := by
  rw [get_set, if_neg h]

theorem get_keep (t : Table K V) (p : K → Bool) (k : K) :
    (t.keep p).get k = if p k then t.get k else none :=
  lookup_filter p k t.entries

theorem get_erase (t : Table K V) (k k' : K) :
    (t.erase k).get k' = if k' = k then none else t.get k' := by
  rw [erase, get_keep]
  by_cases h : k' = k <;> simp [h]

@[simp] theorem get_erase_self (t : Table K V) (k : K) : (t.erase k).get k = none := by
  rw [get_erase, if_pos rfl]

theorem get_erase_ne (t : Table K V) (h : k' ≠ k) : (t.erase k).get k' = t.get k' := by
  rw [get_erase, if_neg h]

/-- Erasing a list of keys erases each of them. -/
theorem get_foldl_erase_of_mem {α : Type*} {key : α → K} {items : List α} (t : Table K V)
    (h : k ∈ items.map key) : (items.foldl (fun t a => t.erase (key a)) t).get k = none := by
  have hnone : ∀ (items : List α) (t : Table K V), t.get k = none →
      (items.foldl (fun t a => t.erase (key a)) t).get k = none := by
    intro items
    induction items with
    | nil => exact fun t h => h
    | cons a items ih =>
      intro t ht
      refine ih _ ?_
      rw [get_erase, ht, ite_self]
  induction items generalizing t with
  | nil => cases h
  | cons a items ih =>
    rcases List.mem_cons.mp h with rfl | h
    · exact hnone items _ (get_erase_self t _)
    · exact ih _ h

/-- Erasing a list of keys erases nothing else. -/
theorem get_foldl_erase_of_notMem {α : Type*} {key : α → K} {items : List α} (t : Table K V)
    (h : k ∉ items.map key) : (items.foldl (fun t a => t.erase (key a)) t).get k = t.get k := by
  induction items generalizing t with
  | nil => rfl
  | cons a items ih =>
    obtain ⟨ha, hitems⟩ := not_or.mp (mt List.mem_cons.mpr h)
    rw [List.foldl_cons, ih _ hitems, get_erase_ne t ha]

theorem lookup_map {W : Type*} (f : V → W) (k : K) (es : List (K × V)) :
    lookup k (es.map fun e => (e.1, f e.2)) = (lookup k es).map f := by
  induction es with
  | nil => rfl
  | cons e es ih =>
    rw [List.map_cons, lookup, lookup, ih]
    split_ifs <;> rfl

@[simp] theorem get_map {W : Type*} (f : V → W) (t : Table K V) (k : K) :
    (t.map f).get k = (t.get k).map f :=
  lookup_map f k t.entries

theorem mem_entries : (k, v) ∈ t.entries ↔ t.get k = some v :=
  ⟨fun h => lookup_eq_some_of_mem t.sorted h, mem_of_lookup_eq_some⟩

/-- A scan returns the entries of its range. -/
theorem mem_scan : (k, v) ∈ t.scan p ↔ t.get k = some v ∧ p k = true := by
  rw [scan, List.mem_filter, mem_entries]

theorem sorted_scan (t : Table K V) (p : K → Bool) :
    (t.scan p).Pairwise fun e e' => e.1 < e'.1 :=
  t.sorted.filter _

/-- No key is scanned twice. -/
theorem nodup_scan_keys (t : Table K V) (p : K → Bool) : ((t.scan p).map Prod.fst).Nodup :=
  List.pairwise_map.mpr ((t.sorted_scan p).imp ne_of_lt)

/-- **A table is determined by its values.** -/
theorem ext (h : ∀ k, t.get k = t'.get k) : t = t' := by
  have hmem : ∀ e, e ∈ t.entries ↔ e ∈ t'.entries := by
    rintro ⟨k, v⟩
    rw [mem_entries, mem_entries, h]
  have hnodup : ∀ u : Table K V, u.entries.Nodup := fun u =>
    u.sorted.imp fun h => ne_of_apply_ne Prod.fst h.ne
  have hperm : t.entries.Perm t'.entries :=
    (List.perm_ext_iff_of_nodup (hnodup t) (hnodup t')).mpr hmem
  have heq : t.entries = t'.entries :=
    hperm.eq_of_pairwise (fun a b _ _ hab hba => absurd (hab.trans hba) (lt_irrefl _)) t.sorted t'.sorted
  cases t
  cases t'
  cases heq
  rfl

theorem set_eq_self (h : t.get k = some v) : t.set k v = t := by
  refine ext fun k' => ?_
  rw [get_set]
  split_ifs with hk
  · rw [← hk, h]
  · rfl

theorem erase_eq_self (h : t.get k = none) : t.erase k = t := by
  refine ext fun k' => ?_
  rw [get_erase]
  split_ifs with hk
  · rw [hk, h]
  · rfl

instance [DecidableEq V] : DecidableEq (Table K V) := fun t t' =>
  decidable_of_iff (t.entries = t'.entries) ⟨fun h => by cases t; cases t'; cases h; rfl, fun h => h ▸ rfl⟩

end Table

end Tack.Lib
