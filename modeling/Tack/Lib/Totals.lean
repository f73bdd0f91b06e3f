import Mathlib
import Tack.Lib.Table

/-!
# Sums over a table

A sum over the values of a table is kept as values come and go, or computed by reading the table page by
page.  The first needs what one write does to the sum, the second what a scan has read after one page: a
scan that adds as it reads then ends with the sum.

## Main definitions

* `Lib.Table.total` — the sum of a weight over the values.
* `Lib.Table.page` — the next entries after a cursor.
* `Lib.Table.upTo` — what a scan that stands at a cursor has read.

## Main results

* `Lib.Table.total_set`, `Lib.Table.total_erase` — one write.
* `Lib.Table.page_last`, `Lib.Table.page_more` — one page.
-/

namespace Tack.Lib.Table

variable {K V : Type*} [LinearOrder K]

/-! ### One write -/

def weigh (w : V → ℤ) (es : List (K × V)) : ℤ := (es.map fun e => w e.2).sum

omit [LinearOrder K] in
@[simp] theorem weigh_nil (w : V → ℤ) : weigh w ([] : List (K × V)) = 0 := rfl

omit [LinearOrder K] in
@[simp] theorem weigh_cons (w : V → ℤ) (e : K × V) (es : List (K × V)) :
    weigh w (e :: es) = w e.2 + weigh w es := rfl

omit [LinearOrder K] in
@[simp] theorem weigh_append (w : V → ℤ) (es es' : List (K × V)) :
    weigh w (es ++ es') = weigh w es + weigh w es' := by
  simp [weigh]

/-- The sum of a weight over the values. -/
def total (w : V → ℤ) (t : Table K V) : ℤ := weigh w t.entries

variable {es items : List (K × V)} {limit : ℕ} {t : Table K V} {cursor : Option K}

theorem lookup_eq_none {k : K} (h : ∀ e ∈ es, e.1 ≠ k) : lookup k es = none := by
  induction es with
  | nil => rfl
  | cons a as ih =>
    rw [lookup, if_neg (h a List.mem_cons_self), ih fun e he => h e (List.mem_cons_of_mem a he)]

theorem weigh_insertEntry (w : V → ℤ) (k : K) (v : V) (h : es.Pairwise fun e e' => e.1 < e'.1) :
    weigh w (insertEntry k v es) = weigh w es - (lookup k es).elim 0 w + w v := by
  induction es with
  | nil => simp [insertEntry, lookup]
  | cons a as ih =>
    obtain ⟨hfirst, hrest⟩ := List.pairwise_cons.mp h
    rw [insertEntry]
    split_ifs with hlt heq
    · have hnone : lookup k (a :: as) = none := by
        refine lookup_eq_none fun e he => ?_
        rcases List.mem_cons.mp he with rfl | he
        · exact hlt.ne'
        · exact (hlt.trans (hfirst e he)).ne'
      rw [hnone, weigh_cons, Option.elim_none]
      abel
    · rw [lookup, if_pos heq.symm, weigh_cons, weigh_cons, Option.elim_some]
      abel
    · rw [lookup, if_neg (Ne.symm heq), weigh_cons, weigh_cons, ih hrest]
      abel

theorem weigh_filter_ne (w : V → ℤ) (k : K) (h : es.Pairwise fun e e' => e.1 < e'.1) :
    weigh w (es.filter fun e => decide (e.1 ≠ k)) = weigh w es - (lookup k es).elim 0 w := by
  induction es with
  | nil => simp [lookup]
  | cons a as ih =>
    obtain ⟨hfirst, hrest⟩ := List.pairwise_cons.mp h
    rw [lookup]
    split_ifs with hk
    · have hothers : as.filter (fun e => decide (e.1 ≠ k)) = as :=
        List.filter_eq_self.mpr fun e he => decide_eq_true (hk ▸ (hfirst e he).ne')
      rw [List.filter_cons_of_neg (by simp [hk]), hothers, weigh_cons, Option.elim_some]
      abel
    · rw [List.filter_cons_of_pos (by simp [hk]), weigh_cons, weigh_cons, ih hrest]
      abel

/-- **A write replaces the weight of the value that stood there.** -/
theorem total_set (w : V → ℤ) (t : Table K V) (k : K) (v : V) :
    (t.set k v).total w = t.total w - (t.get k).elim 0 w + w v :=
  weigh_insertEntry w k v t.sorted

theorem total_erase (w : V → ℤ) (t : Table K V) (k : K) :
    (t.erase k).total w = t.total w - (t.get k).elim 0 w :=
  weigh_filter_ne w k t.sorted

/-! ### One page -/

/-- The entries after a cursor; without a cursor, all. -/
def after (t : Table K V) (cursor : Option K) : List (K × V) :=
  t.entries.filter fun e => cursor.all fun k => decide (k < e.1)

/-- What a scan that stands at the cursor has read. -/
def upTo (t : Table K V) (cursor : Option K) : List (K × V) :=
  t.entries.filter fun e => cursor.any fun k => decide (e.1 ≤ k)

/-- The next entries after a cursor, at most `limit`, and whether they are the last. -/
def page (limit : ℕ) (t : Table K V) (cursor : Option K) : List (K × V) × Bool :=
  let items := (t.after cursor).take (limit + 1)
  if items.length > limit then (items.take limit, false) else (items, true)

@[simp] theorem upTo_none (t : Table K V) : t.upTo none = [] := by
  simp [upTo]

/-- A sorted list splits where the keys pass a bound. -/
theorem filter_le_append_filter_lt (h : es.Pairwise fun e e' => e.1 < e'.1) (k : K) :
    es.filter (fun e => decide (e.1 ≤ k)) ++ es.filter (fun e => decide (k < e.1)) = es := by
  induction es with
  | nil => rfl
  | cons a as ih =>
    obtain ⟨hfirst, hrest⟩ := List.pairwise_cons.mp h
    by_cases hk : a.1 ≤ k
    · rw [List.filter_cons_of_pos (by simp [hk]), List.filter_cons_of_neg (by simp [hk]), List.cons_append,
        ih hrest]
    · -- everything after `a` is past the bound too
      have hpast : ∀ e ∈ a :: as, k < e.1 := by
        intro e he
        rcases List.mem_cons.mp he with rfl | he
        · exact not_le.mp hk
        · exact (not_le.mp hk).trans (hfirst e he)
      rw [List.filter_eq_nil_iff.mpr fun e he => by simp [hpast e he],
        List.filter_eq_self.mpr fun e he => by simp [hpast e he], List.nil_append]

theorem upTo_append_after (t : Table K V) (cursor : Option K) : t.upTo cursor ++ t.after cursor = t.entries := by
  cases cursor with
  | none => simp [upTo, after]
  | some k => exact filter_le_append_filter_lt t.sorted k

theorem page_last_append (h : t.page limit cursor = (items, true)) : t.upTo cursor ++ items = t.entries := by
  unfold page at h
  dsimp only at h
  split_ifs at h with hlong
  · cases (Prod.mk.inj h).2
  obtain rfl := (Prod.mk.inj h).1
  rw [List.length_take, not_lt] at hlong
  rw [List.take_of_length_le (by omega), upTo_append_after]

/-- **The last page completes the sum.** -/
theorem page_last (w : V → ℤ)
    (h : t.page limit cursor = (items, true)) : weigh w (t.upTo cursor) + weigh w items = t.total w := by
  rw [← weigh_append, page_last_append h, total]

/-- The entries up to `k` are the front part of the table, when that part ends before `k`. -/
theorem upTo_eq_of_append {front back : List (K × V)} {k : K} (h : t.entries = front ++ back)
    (hfront : ∀ e ∈ front, e.1 ≤ k) (hback : ∀ e ∈ back, k < e.1) : t.upTo (some k) = front := by
  rw [upTo, h, List.filter_append, List.filter_eq_self.mpr fun e he => by simpa using hfront e he,
    List.filter_eq_nil_iff.mpr fun e he => by simpa using hback e he, List.append_nil]

/-- **Another page follows**: the scan stands at the last entry of this one and has read it. -/
theorem page_more (hlimit : 0 < limit) (h : t.page limit cursor = (items, false)) :
    ∃ last, items.getLast? = some last ∧ t.upTo (some last.1) = t.upTo cursor ++ items := by
  unfold page at h
  dsimp only at h
  split_ifs at h with hlong
  swap
  · cases (Prod.mk.inj h).2
  obtain rfl := (Prod.mk.inj h).1
  rw [List.length_take] at hlong
  rw [List.take_take, Nat.min_eq_left (Nat.le_succ limit)]
  obtain ⟨init, last, hitems⟩ := (List.take limit (t.after cursor)).eq_nil_or_concat.resolve_left
    fun hnil => by
      have hlength := congrArg List.length hnil
      rw [List.length_take, List.length_nil] at hlength
      omega
  have hsplit : t.entries =
      (t.upTo cursor ++ (init ++ [last])) ++ (t.after cursor).drop limit := by
    rw [← List.concat_eq_append, ← hitems, List.append_assoc, List.take_append_drop, upTo_append_after]
  refine ⟨last, by rw [hitems, List.concat_eq_append, List.getLast?_concat], ?_⟩
  rw [hitems, List.concat_eq_append]
  have hsorted := t.sorted
  rw [hsplit, ← List.append_assoc, List.append_assoc, List.pairwise_append] at hsorted
  obtain ⟨-, htail, hcross⟩ := hsorted
  refine upTo_eq_of_append hsplit (fun e he => ?_) fun e he => ?_
  · rw [← List.append_assoc] at he
    rcases List.mem_append.mp he with he | he
    · exact (hcross e he last (by simp)).le
    · exact (List.mem_singleton.mp he ▸ le_rfl)
  · exact (List.pairwise_cons.mp htail).1 e he

end Tack.Lib.Table
