import Mathlib

/-!
# Byte strings in lexicographic order

An ordered key-value store orders its keys as byte strings.  This file holds what the
order says about keys of one length: big-endian numbers keep their order, and the end key
of the range of all keys with a given prefix bounds exactly the keys up to that prefix.

## Main definitions

* `Lib.beBytes` — a number as a fixed count of big-endian bytes; `Lib.beValue` reads it back.
* `Lib.strinc` — the first key after every key that starts with the given one.

## Main results

* `Lib.beBytes_lt_beBytes` — big-endian bytes keep the order of the numbers.
* `Lib.lt_strinc_iff` — below `strinc m` are, among keys as long as `m`, those up to `m`.
-/

namespace Tack.Lib

/-- A byte. -/
abbrev Byte := Fin 256

-- named, so that every byte literal is elaborated to the same term
instance byte_neZero : NeZero 256 := ⟨by decide⟩

/-! ### Concatenation -/

/-- A common start does not matter. -/
theorem append_lt_append_left_iff (p : List Byte) {a b : List Byte} :
    p ++ a < p ++ b ↔ a < b := by
  induction p with
  | nil => rfl
  | cons c p ih => simp [ih]

/-- What follows two strings of one length does not change a strict order. -/
theorem append_lt_append_of_lt {a b : List Byte} (hlen : a.length = b.length) (h : a < b)
    (x y : List Byte) : a ++ x < b ++ y := by
  induction a generalizing b with
  | nil =>
    rw [List.length_nil] at hlen
    rw [List.eq_nil_of_length_eq_zero hlen.symm] at h
    exact absurd h (lt_irrefl _)
  | cons c a ih =>
    cases b with
    | nil => simp at hlen
    | cons d b =>
      rw [List.cons_lt_cons_iff] at h
      rw [List.cons_append, List.cons_append, List.cons_lt_cons_iff]
      rcases h with h | ⟨rfl, h⟩
      · exact .inl h
      · exact .inr ⟨rfl, ih (by simpa using hlen) h⟩

/-! ### Big-endian numbers -/

/-- The number `v` as `n` big-endian bytes. -/
def beBytes : ℕ → ℕ → List Byte
  | 0, _ => []
  | n + 1, v => ⟨v / 256 ^ n % 256, Nat.mod_lt _ (by decide)⟩ :: beBytes n (v % 256 ^ n)

@[simp] theorem length_beBytes (n v : ℕ) : (beBytes n v).length = n := by
  induction n generalizing v with
  | zero => rfl
  | succ n ih => simp [beBytes, ih]

/-- A digest of thirty-two bytes for examples, which every byte counts in. -/
def sampleDigest (bytes : List Byte) : List Byte :=
  beBytes 32 (bytes.foldl (fun n b => (257 * n + b + 1) % 2 ^ 256) 0)

theorem length_sampleDigest (bytes : List Byte) : (sampleDigest bytes).length = 32 := length_beBytes _ _

/-- Big-endian bytes keep the order of the numbers they can hold. -/
theorem beBytes_lt_beBytes {n v w : ℕ} (h : v < w) (hw : w < 256 ^ n) :
    beBytes n v < beBytes n w := by
  induction n generalizing v w with
  | zero => simp at hw; omega
  | succ n ih =>
    have hpos : 0 < 256 ^ n := Nat.pow_pos (by decide)
    have hdiv : v / 256 ^ n ≤ w / 256 ^ n := Nat.div_le_div_right h.le
    have hlt : w / 256 ^ n < 256 := by
      rw [Nat.div_lt_iff_lt_mul hpos, mul_comm, ← pow_succ]
      exact hw
    simp only [beBytes]
    rw [List.cons_lt_cons_iff]
    rcases hdiv.lt_or_eq with hd | hd
    · left
      rw [Fin.mk_lt_mk, Nat.mod_eq_of_lt (hd.trans hlt), Nat.mod_eq_of_lt hlt]
      exact hd
    · refine .inr ⟨by simp only [hd], ih ?_ (Nat.mod_lt _ hpos)⟩
      have hv := Nat.div_add_mod v (256 ^ n)
      have hw' := Nat.div_add_mod w (256 ^ n)
      rw [hd] at hv
      omega

/-- The number that big-endian bytes stand for. -/
def beValue (bytes : List Byte) : ℕ := bytes.foldl (fun n b => 256 * n + b.val) 0

theorem foldl_beBytes {n v : ℕ} (hv : v < 256 ^ n) (acc : ℕ) :
    (beBytes n v).foldl (fun m b => 256 * m + b.val) acc = acc * 256 ^ n + v := by
  induction n generalizing v acc with
  | zero => simp at hv; simp [beBytes, hv]
  | succ n ih =>
    have hpos : 0 < 256 ^ n := Nat.pow_pos (by decide)
    have hlt : v / 256 ^ n < 256 := by
      rw [Nat.div_lt_iff_lt_mul hpos, mul_comm, ← pow_succ]
      exact hv
    rw [beBytes, List.foldl_cons, ih (Nat.mod_lt _ hpos)]
    simp only [Nat.mod_eq_of_lt hlt]
    calc (256 * acc + v / 256 ^ n) * 256 ^ n + v % 256 ^ n
        = acc * (256 ^ n * 256) + (256 ^ n * (v / 256 ^ n) + v % 256 ^ n) := by ring
      _ = acc * 256 ^ (n + 1) + v := by rw [Nat.div_add_mod, pow_succ]

/-- Big-endian bytes are read back. -/
theorem beValue_beBytes {n v : ℕ} (hv : v < 256 ^ n) : beValue (beBytes n v) = v := by
  rw [beValue, foldl_beBytes hv, Nat.zero_mul, Nat.zero_add]

/-! ### The end of a range -/

/-- The first key after every key that starts with the given one: the last byte that is not
`0xFF` goes up by one and what follows it is cut off. -/
def strinc : List Byte → Option (List Byte)
  | [] => none
  | b :: bs =>
    match strinc bs with
    | some e => some (b :: e)
    | none => if h : b.val + 1 < 256 then some [⟨b.val + 1, h⟩] else none

/-- Only a key of `0xFF` bytes has no successor, and no key of its length is above it. -/
theorem le_of_strinc_eq_none {m k : List Byte} (h : strinc m = none) (hlen : k.length = m.length) : k ≤ m := by
  induction m generalizing k with
  | nil => simp [List.eq_nil_of_length_eq_zero hlen]
  | cons b m ih =>
    cases k with
    | nil => simp at hlen
    | cons c k =>
      rw [strinc] at h
      split at h
      · simp at h
      · next hm =>
        split at h
        · simp at h
        · next hb =>
          rw [← not_lt, List.cons_lt_cons_iff]
          rintro (hlt | ⟨-, hlt⟩)
          · have := c.isLt
            rw [Fin.lt_def] at hlt
            omega
          · exact absurd hlt (not_lt.mpr (ih hm (by simpa using hlen)))

/-- Below the end key are, among the keys of the length of `m`, exactly those up to `m`. -/
theorem lt_strinc_iff {m e k : List Byte} (h : strinc m = some e) (hlen : k.length = m.length) :
    k < e ↔ k ≤ m := by
  induction m generalizing k e with
  | nil => simp [strinc] at h
  | cons b m ih =>
    cases k with
    | nil => simp at hlen
    | cons c k =>
      have hlen' : k.length = m.length := by simpa using hlen
      rw [← not_lt (a := b :: m), List.cons_lt_cons_iff]
      rw [strinc] at h
      split at h
      · next e' he' =>
        cases h
        rw [List.cons_lt_cons_iff, ih he' hlen', ← not_lt (a := m)]
        rcases lt_trichotomy c b with hcb | rfl | hcb
        · simp [hcb, hcb.ne', not_lt_of_gt hcb]
        · simp
        · simp [hcb, hcb.ne', not_lt_of_gt hcb]
      · next hm =>
        split at h
        · cases h
          have hle := le_of_strinc_eq_none hm hlen'
          rw [List.cons_lt_cons_iff, Fin.lt_def, Fin.lt_def, Fin.ext_iff]
          simp only [List.not_lt_nil, and_false, or_false, not_lt.mpr hle]
          omega
        · simp at h

/-! ### Length frames -/

/-- A payload that is not the end of another one with its length before it: it starts with eight bytes
the first of which comes once among them, has no zero byte and is not too long. -/
structure Framed (mark : List Byte) (payload : List Byte) : Prop where
  start : mark <+: payload
  zero : 0 ∉ payload
  length : payload.length < 2 ^ 56

/-- The leading byte of a length is zero. -/
theorem beBytes_eq_zero_cons {n : ℕ} (h : n < 2 ^ 56) : ∃ rest, beBytes 8 n = 0 :: rest := by
  refine ⟨beBytes 7 (n % 256 ^ 7), ?_⟩
  rw [beBytes]
  congr 1
  rw [Fin.ext_iff]
  change n / 256 ^ 7 % 256 = 0
  omega

/-- A framed payload does not end a longer one. -/
theorem Framed.not_suffix {b : Byte} {w c d p q : List Byte} (hw : w.length = 7) (hb : b ∉ w)
    (hc : Framed (b :: w) c) (hd : Framed (b :: w) d) (hlt : c.length < d.length) :
    p ++ (beBytes 8 c.length ++ c) ≠ q ++ (beBytes 8 d.length ++ d) := by
  intro h
  have hlen : p.length + c.length = q.length + d.length := by
    have := congrArg List.length h
    simp only [List.length_append, length_beBytes] at this
    omega
  -- what follows `p` on the left is what follows as many bytes on the right
  have hdrop : beBytes 8 c.length ++ c = (beBytes 8 d.length ++ d).drop (d.length - c.length) := by
    have hp : p.length = q.length + (d.length - c.length) := by omega
    have h' := congrArg (List.drop p.length) h
    rw [List.drop_left, hp, ← List.drop_drop, List.drop_left] at h'
    exact h'
  obtain ⟨rc, hrc⟩ := hc.start
  obtain ⟨rd, hrd⟩ := hd.start
  by_cases hfar : 8 ≤ d.length - c.length
  · -- the length of `c` lies inside `d`, but starts with a zero
    rw [List.drop_append, List.drop_eq_nil_of_le (by rwa [length_beBytes]), List.nil_append,
      length_beBytes] at hdrop
    obtain ⟨rest, hrest⟩ := beBytes_eq_zero_cons hc.length
    have hzero : (0 : Byte) ∈ d.drop (d.length - c.length - 8) := by
      rw [← hdrop, hrest]
      exact List.mem_cons_self
    exact hd.zero (List.mem_of_mem_drop hzero)
  · -- `c` starts among the first eight bytes of `d`
    have hcd : c = d.drop (d.length - c.length) := by
      have h' := congrArg (List.drop 8) hdrop
      rw [List.drop_left' (length_beBytes 8 _), List.drop_drop, Nat.add_comm, ← List.drop_drop,
        List.drop_left' (length_beBytes 8 _)] at h'
      exact h'
    have hhead : d[d.length - c.length]? = some b := by
      have h0 : c.head? = some b := by
        rw [← hrc]
        rfl
      rw [hcd, List.head?_drop] at h0
      exact h0
    obtain ⟨k, hk⟩ : ∃ k, d.length - c.length = k + 1 := ⟨d.length - c.length - 1, by omega⟩
    rw [hk, ← hrd, List.cons_append, List.getElem?_cons_succ,
      List.getElem?_append_left (by omega)] at hhead
    exact hb (List.mem_of_getElem? hhead)

/-- **A length frame is read from its end**: what stands before it and the payload are determined. -/
theorem Framed.injective {b : Byte} {w c d p q : List Byte} (hw : w.length = 7) (hb : b ∉ w)
    (hc : Framed (b :: w) c) (hd : Framed (b :: w) d)
    (h : p ++ (beBytes 8 c.length ++ c) = q ++ (beBytes 8 d.length ++ d)) : p = q ∧ c = d := by
  rcases Nat.lt_trichotomy c.length d.length with hlt | heq | hgt
  · exact absurd h (hc.not_suffix hw hb hd hlt)
  · obtain ⟨hpq, hrest⟩ := List.append_inj' h (by simp [heq])
    exact ⟨hpq, (List.append_inj hrest (by simp)).2⟩
  · exact absurd h.symm (hd.not_suffix hw hb hc hgt)

end Tack.Lib
