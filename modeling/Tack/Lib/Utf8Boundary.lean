import Tack.Lib.Utf8

/-!
# Where characters begin

In UTF-8 a byte either begins a character or continues one.  Bytes cut where a character begins are cut
between characters: a needle that is one character is found only in whole, and the two parts of a valid text
are valid.

## Main definitions

* `Lib.continues` — the byte continues a character.
* `Lib.ValidUtf8` — the bytes of a text.

## Main results

* `Lib.eq_utf8Char_append_of_utf8Head` — what the decoder reads is there.
* `Lib.utf8_eq_append` — a valid text is cut into valid parts where a character begins.
* `Lib.exists_beginsChar_drop`, `Lib.ValidUtf8.slice` — a place near any other, and what stands between two.
* `Lib.validUtf8_of_append_eq` — replacing the invalid bytes of a part changes the whole.
* `Lib.BeginsChar.le_of_prefix_drop`, `Lib.le_of_prefix_drop_utf8Char` — a character is found in whole.
-/

namespace Tack.Lib

/-- The byte continues a character: its two high bits are 10. -/
def continues (b : Byte) : Bool := b.val / 64 = 2

/-- **A character is one byte that begins it and bytes that continue it.** -/
theorem utf8Char_eq_cons (c : Char) :
    ∃ b bs, utf8Char c = b :: bs ∧ continues b = false ∧ ∀ x ∈ bs, continues x = true := by
  have hfirst : ∀ n : ℕ, n < 256 → n / 64 ≠ 2 → continues (UInt8.ofNat n).toFin = false := by
    intro n hn hdiv
    have hval : (UInt8.ofNat n).toFin.val = n := Nat.mod_eq_of_lt hn
    rw [continues, hval]
    exact decide_eq_false hdiv
  have hnext : ∀ n : ℕ, continues (UInt8.ofNat (n % 64 + 128)).toFin = true := by
    intro n
    have hval : (UInt8.ofNat (n % 64 + 128)).toFin.val = n % 64 + 128 := Nat.mod_eq_of_lt (by omega)
    simp only [continues, hval, decide_eq_true_eq]
    omega
  have hsize : c.val.toNat < 1114112 := by
    have := c.valid
    rcases this with h | h
    · exact lt_trans h (by decide)
    · exact h.2
  simp only [utf8Char, String.utf8EncodeChar]
  split_ifs
  · exact ⟨_, _, rfl, hfirst _ (by omega) (by omega), by simp⟩
  · exact ⟨_, _, rfl, hfirst _ (by omega) (by omega), by
      simp only [List.map_cons, List.map_nil, List.forall_mem_cons, hnext, List.not_mem_nil, false_imp_iff, implies_true, true_and]⟩
  · exact ⟨_, _, rfl, hfirst _ (by omega) (by omega), by
      simp only [List.map_cons, List.map_nil, List.forall_mem_cons, hnext, List.not_mem_nil, false_imp_iff, implies_true, true_and]⟩
  · exact ⟨_, _, rfl, hfirst _ (by omega) (by omega), by
      simp only [List.map_cons, List.map_nil, List.forall_mem_cons, hnext, List.not_mem_nil, false_imp_iff, implies_true, true_and]⟩

/-! ### Decoding -/

variable {bytes p q rest : List Byte} {c d : Char} {i : ℕ}

/-- What the decoder reads is there. -/
theorem eq_utf8Char_append_of_utf8Head (h : utf8Head bytes = some c) :
    ∃ rest, bytes = utf8Char c ++ rest := by
  obtain ⟨rest, hrest⟩ := ByteArray.exists_of_utf8DecodeChar?_eq_some h
  have hlist := congrArg (fun b : ByteArray => b.data.toList.map UInt8.toFin) hrest
  simp only [ByteArray.data_append, List.data_toByteArray, Array.toList_append, List.map_append,
    List.map_map] at hlist
  refine ⟨rest.data.toList.map UInt8.toFin, ?_⟩
  rw [utf8Char, ← hlist]
  exact (List.map_id'' (fun b => UInt8.toFin_ofFin b) bytes).symm

theorem utf8DecodeUpTo_eq {n : ℕ} (h : bytes.length ≤ n) :
    utf8DecodeUpTo n bytes = utf8Decode bytes := by
  have hfuel : ∀ m n (bytes : List Byte), bytes.length ≤ m → bytes.length ≤ n →
      utf8DecodeUpTo m bytes = utf8DecodeUpTo n bytes := by
    intro m
    induction m with
    | zero =>
      intro n bytes hm _
      obtain rfl := List.length_eq_zero_iff.mp (Nat.le_zero.mp hm)
      cases n <;> rfl
    | succ m ih =>
      intro n bytes hm hn
      cases bytes with
      | nil => cases n <;> rfl
      | cons b bs =>
        obtain ⟨n, rfl⟩ : ∃ k, n = k + 1 := ⟨n - 1, by simp at hn; omega⟩
        rw [List.length_cons, Nat.add_le_add_iff_right] at hm hn
        rw [utf8DecodeUpTo, utf8DecodeUpTo]
        cases hhead : utf8Head (b :: bs) with
        | none => simp only [ih n bs hm hn]
        | some c =>
          have hsize := c.utf8Size_pos
          have hshort : ((b :: bs).drop c.utf8Size).length ≤ bs.length := by
            rw [List.length_drop, List.length_cons]
            omega
          simp only [ih n _ (hshort.trans hm) (hshort.trans hn)]
  exact hfuel n bytes.length bytes h le_rfl

@[simp] theorem utf8Decode_nil : utf8Decode [] = [] := rfl

theorem utf8Decode_of_invalid {b : Byte} {bs : List Byte} (h : utf8Head (b :: bs) = none) :
    utf8Decode (b :: bs) = '\uFFFD' :: utf8Decode bs := by
  rw [utf8Decode, List.length_cons, utf8DecodeUpTo, h]
  rfl

theorem utf8Decode_utf8Char_append (c : Char) (rest : List Byte) :
    utf8Decode (utf8Char c ++ rest) = c :: utf8Decode rest := by
  obtain ⟨b, bs, hc, -, -⟩ := utf8Char_eq_cons c
  have hhead := utf8Head_append c rest
  have hdrop : (utf8Char c ++ rest).drop c.utf8Size = rest := by
    rw [← length_utf8Char, List.drop_left]
  have hlength : rest.length ≤ (bs ++ rest).length := by simp
  rw [hc, List.cons_append] at hhead hdrop ⊢
  rw [utf8Decode, List.length_cons, utf8DecodeUpTo, hhead]
  simp only [hdrop, utf8DecodeUpTo_eq hlength]

theorem utf8Decode_eq_nil : utf8Decode bytes = [] ↔ bytes = [] := by
  constructor
  · intro h
    cases bytes with
    | nil => rfl
    | cons b bs =>
      rw [utf8Decode, List.length_cons, utf8DecodeUpTo] at h
      cases hhead : utf8Head (b :: bs) <;> rw [hhead] at h <;> cases h
  · rintro rfl
    rfl

/-- The bytes of a text. -/
def ValidUtf8 (bytes : List Byte) : Prop := utf8 (utf8Decode bytes) = bytes

theorem validUtf8_utf8 (cs : List Char) : ValidUtf8 (utf8 cs) := by
  rw [ValidUtf8, utf8Decode_utf8]

theorem ValidUtf8.exists_utf8 (h : ValidUtf8 bytes) : ∃ cs, bytes = utf8 cs := ⟨_, h.symm⟩

/-! ### Cuts -/

/-- The bytes begin with a character, or there are none. -/
def BeginsChar (bytes : List Byte) : Prop := ∀ b ∈ bytes.head?, continues b = false

theorem beginsChar_nil : BeginsChar [] := nofun

theorem beginsChar_utf8Char_append (c : Char) (rest : List Byte) : BeginsChar (utf8Char c ++ rest) := by
  obtain ⟨b, bs, hc, hb, -⟩ := utf8Char_eq_cons c
  rw [hc]
  rintro _ ⟨⟩
  exact hb

theorem beginsChar_utf8 (cs : List Char) : BeginsChar (utf8 cs) := by
  cases cs with
  | nil => exact beginsChar_nil
  | cons c cs => exact beginsChar_utf8Char_append c (utf8 cs)

/-- Bytes that end inside a character leave a continuing byte behind. -/
theorem length_utf8Char_le_of_append_eq (hp : p ≠ [])
    (h : p ++ q = utf8Char c ++ rest) (hq : BeginsChar q) : (utf8Char c).length ≤ p.length := by
  obtain ⟨b, bs, hc, -, hbs⟩ := utf8Char_eq_cons c
  by_contra hlt
  rw [not_le] at hlt
  rcases List.append_eq_append_iff.mp h with ⟨middle, hmiddle, hq'⟩ | ⟨middle, hmiddle, -⟩
  · obtain ⟨x, p, rfl⟩ := List.exists_cons_of_ne_nil hp
    cases middle with
    | nil =>
      rw [hmiddle, List.append_nil] at hlt
      omega
    | cons y middle =>
      rw [hc, List.cons_append, List.cons.injEq] at hmiddle
      have hy : y ∈ bs := by rw [hmiddle.2]; simp
      have hcut := hq y (by rw [hq']; rfl)
      rw [hbs y hy] at hcut
      cases hcut
  · rw [hmiddle, List.length_append] at hlt
    omega

/-- **A valid text cut where a character begins.** -/
theorem utf8_eq_append {cs : List Char} (h : p ++ q = utf8 cs) (hq : BeginsChar q) :
    ∃ ds es, p = utf8 ds ∧ q = utf8 es ∧ cs = ds ++ es := by
  induction cs generalizing p with
  | nil =>
    obtain ⟨rfl, rfl⟩ := List.append_eq_nil_iff.mp h
    exact ⟨[], [], rfl, rfl, rfl⟩
  | cons c cs ih =>
    by_cases hp : p = []
    · subst hp
      exact ⟨[], c :: cs, rfl, h, rfl⟩
    · rw [utf8_cons] at h
      have hlength := length_utf8Char_le_of_append_eq hp h hq
      obtain ⟨p', rfl⟩ : utf8Char c <+: p :=
        List.prefix_of_prefix_length_le (List.prefix_append _ _) (h ▸ List.prefix_append p q) hlength
      rw [List.append_assoc, List.append_cancel_left_eq] at h
      obtain ⟨ds, es, rfl, rfl, rfl⟩ := ih h
      exact ⟨c :: ds, es, rfl, rfl, rfl⟩

/-- A character begins at most three bytes before any place in a text. -/
theorem exists_beginsChar_drop {cs : List Char} {e : ℕ} (h : e ≤ (utf8 cs).length) :
    ∃ p ≤ e, e < p + 4 ∧ BeginsChar ((utf8 cs).drop p) := by
  induction cs generalizing e with
  | nil => exact ⟨e, le_rfl, by omega, by simp [utf8, beginsChar_nil]⟩
  | cons c cs ih =>
    have hsplit : utf8 (c :: cs) = utf8Char c ++ utf8 cs := rfl
    have hsize : (utf8Char c).length ≤ 4 := by
      rw [length_utf8Char]
      exact Char.utf8Size_le_four c
    rw [hsplit, List.length_append] at h
    by_cases hlt : e < (utf8Char c).length
    · exact ⟨0, Nat.zero_le e, by omega, beginsChar_utf8 (c :: cs)⟩
    · obtain ⟨p, hp, hnear, hbegins⟩ := ih (by omega : e - (utf8Char c).length ≤ (utf8 cs).length)
      refine ⟨(utf8Char c).length + p, by omega, by omega, ?_⟩
      rw [hsplit, List.drop_append, List.drop_eq_nil_of_le (Nat.le_add_right _ p), Nat.add_sub_cancel_left]
      exact hbegins

/-- What stands between two places where characters begin is valid. -/
theorem ValidUtf8.slice (h : ValidUtf8 bytes) {start stop : ℕ} (hle : start ≤ stop)
    (hstart : BeginsChar (bytes.drop start)) (hstop : BeginsChar (bytes.drop stop)) :
    ValidUtf8 ((bytes.drop start).take (stop - start)) := by
  obtain ⟨cs, hcs⟩ := h.exists_utf8
  obtain ⟨-, es, -, hes, -⟩ := utf8_eq_append ((List.take_append_drop start bytes).trans hcs) hstart
  have hrest : (bytes.drop start).drop (stop - start) = bytes.drop stop := by
    rw [List.drop_drop, Nat.add_sub_cancel' hle]
  obtain ⟨ds, -, hds, -, -⟩ :=
    utf8_eq_append ((List.take_append_drop (stop - start) (bytes.drop start)).trans hes) (hrest ▸ hstop)
  rw [hds]
  exact validUtf8_utf8 ds

/-- **Replacing the invalid bytes of a part changes the whole.** -/
theorem validUtf8_of_append_eq {q' : List Byte} (h : p ++ q = utf8 (utf8Decode p) ++ q') (hq : BeginsChar q) :
    ValidUtf8 p := by
  induction hn : p.length using Nat.strong_induction_on generalizing p with
  | _ n ih =>
    cases hp : p with
    | nil => rfl
    | cons b bs =>
      cases hhead : utf8Head (b :: bs) with
      | some c =>
        obtain ⟨rest, hrest⟩ := eq_utf8Char_append_of_utf8Head hhead
        rw [hp, hrest, utf8Decode_utf8Char_append, utf8_cons, List.append_assoc, List.append_assoc,
          List.append_cancel_left_eq] at h
        have hshort : rest.length < n := by
          have hsize := c.utf8Size_pos
          rw [← hn, hp, hrest, List.length_append, length_utf8Char]
          omega
        have hvalid := ih rest.length hshort h rfl
        rw [hrest, ValidUtf8, utf8Decode_utf8Char_append, utf8_cons, hvalid]
      | none =>
        -- the replacement character cannot stand where `b` begins no character
        exfalso
        rw [hp, utf8Decode_of_invalid hhead, utf8_cons, List.append_assoc] at h
        have hlength := length_utf8Char_le_of_append_eq (List.cons_ne_nil b bs) h hq
        obtain ⟨rest, hrest⟩ : utf8Char '\uFFFD' <+: b :: bs :=
          List.prefix_of_prefix_length_le (List.prefix_append _ _) (h ▸ List.prefix_append _ q) hlength
        rw [← hrest, utf8Head_append] at hhead
        cases hhead

/-! ### Finding a character -/

theorem eq_of_utf8Char_begins (h : utf8Char c <+: utf8Char d ++ rest) : c = d := by
  obtain ⟨rest', h⟩ := h
  have hhead := utf8Head_append c rest'
  rw [h, utf8Head_append] at hhead
  exact (Option.some.inj hhead).symm

/-- No character begins inside another. -/
theorem not_utf8Char_prefix_drop (hpos : 0 < i)
    (hlt : i < (utf8Char d).length) : ¬ utf8Char c <+: (utf8Char d ++ rest).drop i := by
  obtain ⟨b, bs, hd, -, hbs⟩ := utf8Char_eq_cons d
  obtain ⟨b', bs', hc, hb', -⟩ := utf8Char_eq_cons c
  obtain ⟨k, rfl⟩ : ∃ k, i = k + 1 := ⟨i - 1, by omega⟩
  rw [hd, List.length_cons, Nat.add_lt_add_iff_right] at hlt
  rw [hd, hc, List.cons_append, List.drop_succ_cons, List.drop_append_of_le_length hlt.le,
    List.drop_eq_getElem_cons hlt, List.cons_append, List.cons_prefix_cons]
  rintro ⟨heq, -⟩
  have hcontinues := hbs _ (List.getElem_mem hlt)
  rw [← heq, hb'] at hcontinues
  cases hcontinues

/-- A character that begins before the cut ends before it. -/
theorem BeginsChar.le_of_prefix_drop (hq : BeginsChar q)
    (h : utf8Char c <+: (p ++ q).drop i) (hi : i < p.length) : i + (utf8Char c).length ≤ p.length := by
  rw [List.drop_append_of_le_length hi.le] at h
  obtain ⟨rest, h⟩ := h
  have hne : p.drop i ≠ [] := fun hnil => by
    have := List.drop_eq_nil_iff.mp hnil
    omega
  have hle := length_utf8Char_le_of_append_eq hne h.symm hq
  rw [List.length_drop] at hle
  omega

/-- A character that begins before the end of another ends there or before. -/
theorem le_of_prefix_drop_utf8Char
    (h : utf8Char c <+: (p ++ utf8Char d ++ q).drop i) (hi : i < (p ++ utf8Char d).length) :
    i + (utf8Char c).length ≤ (p ++ utf8Char d).length := by
  rw [List.append_assoc] at h
  rw [List.length_append] at hi ⊢
  rcases Nat.lt_or_ge i p.length with hlt | hge
  · have := (beginsChar_utf8Char_append d q).le_of_prefix_drop h hlt
    omega
  · rw [show i = p.length + (i - p.length) by omega, ← List.drop_drop, List.drop_left] at h
    rcases Nat.eq_zero_or_pos (i - p.length) with hzero | hpos
    · rw [hzero, List.drop_zero] at h
      rw [eq_of_utf8Char_begins h]
      omega
    · exact absurd h (not_utf8Char_prefix_drop hpos (by omega))

end Tack.Lib
