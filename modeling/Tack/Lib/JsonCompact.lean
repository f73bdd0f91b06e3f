import Tack.Lib.Json

/-!
# Compact JSON texts

An encoder that is handed a raw JSON text writes it without the spaces between its tokens and with the
characters that are unsafe in HTML escaped; the rest of the text stays as it is.

## Main definitions

* `Lib.Json.compact` — the text that is written for a raw text, if that is a JSON value.

## Main results

* `Lib.Json.compact_compact` — a text that was written is written again as it is.
* `Lib.Json.compact_quote` — so is a quoted string of plain characters.
-/

namespace Tack.Lib.Json

/-! ### Writing -/

/-- Puts characters before the text that was written. -/
def withText (cs : List Char) : Option (List Char × List Char) → Option (List Char × List Char) :=
  Option.map fun p => (cs ++ p.1, p.2)

/-- The rest of a string with its closing quote, and what follows it. -/
def compactString : List Char → Option (List Char × List Char)
  | [] => none
  | '\x22' :: rest => some (['\x22'], rest)
  | '\x5c' :: 'u' :: a :: b :: c :: d :: rest =>
    if (hexValue4 a b c d).isSome then withText ['\x5c', 'u', a, b, c, d] (compactString rest)
    else none
  | '\x5c' :: c :: rest =>
    if (unescapeChar c).isSome then withText ['\x5c', c] (compactString rest) else none
  | c :: rest =>
    if c.toNat < 32 then none
    else if c ∈ htmlUnsafe then withText ('\x5c' :: 'u' :: hexDigits4 c.toNat) (compactString rest)
    else withText [c] (compactString rest)

/-- The longest run of number characters, which must be a literal. -/
def compactNumber (cs : List Char) : Option (List Char × List Char) :=
  if isNumber (cs.takeWhile isNumChar) then some (cs.takeWhile isNumChar, cs.dropWhile isNumChar)
  else none

/-- The name of a member with its colon. -/
def compactName (cs : List Char) : Option (List Char × List Char) :=
  match skipSpace cs with
  | '\x22' :: rest =>
    (compactString rest).bind fun p =>
      match skipSpace p.2 with
      | ':' :: rest' => some ('\x22' :: p.1 ++ [':'], rest')
      | _ => none
  | _ => none

mutual

/-- The text of one value; the first argument bounds the nesting and the number of items. -/
def compactValue : ℕ → List Char → Option (List Char × List Char)
  | 0, _ => none
  | n + 1, cs =>
    match skipSpace cs with
    | 'n' :: 'u' :: 'l' :: 'l' :: rest => some (['n', 'u', 'l', 'l'], rest)
    | 't' :: 'r' :: 'u' :: 'e' :: rest => some (['t', 'r', 'u', 'e'], rest)
    | 'f' :: 'a' :: 'l' :: 's' :: 'e' :: rest => some (['f', 'a', 'l', 's', 'e'], rest)
    | '\x22' :: rest => withText ['\x22'] (compactString rest)
    | '[' :: rest =>
      match skipSpace rest with
      | ']' :: rest' => some (['[', ']'], rest')
      | _ => withText ['['] (compactItems n rest)
    | '\x7b' :: rest =>
      match skipSpace rest with
      | '\x7d' :: rest' => some (['\x7b', '\x7d'], rest')
      | _ => withText ['\x7b'] (compactMembers n rest)
    | rest => compactNumber rest

/-- The text of the items of an array with the closing bracket. -/
def compactItems : ℕ → List Char → Option (List Char × List Char)
  | 0, _ => none
  | n + 1, cs =>
    (compactValue n cs).bind fun p =>
      match skipSpace p.2 with
      | ',' :: rest => withText (p.1 ++ [',']) (compactItems n rest)
      | ']' :: rest => some (p.1 ++ [']'], rest)
      | _ => none

/-- The text of the members of an object with the closing brace. -/
def compactMembers : ℕ → List Char → Option (List Char × List Char)
  | 0, _ => none
  | n + 1, cs =>
    (compactName cs).bind fun name =>
      (compactValue n name.2).bind fun p =>
        match skipSpace p.2 with
        | ',' :: rest => withText (name.1 ++ p.1 ++ [',']) (compactMembers n rest)
        | '\x7d' :: rest => some (name.1 ++ p.1 ++ ['\x7d'], rest)
        | _ => none

end

/-- The text that is written for a raw text: one value with whitespace around it. -/
def compact (cs : List Char) : Option (List Char) :=
  match compactValue (cs.length + 1) cs with
  | some (out, rest) => if (skipSpace rest).isEmpty then some out else none
  | none => none

/-! ### Writing what was written -/

variable {cs out rest : List Char} {c : Char}

theorem withText_eq_some {x : Option (List Char × List Char)}
    (h : withText cs x = some (out, rest)) : ∃ out', x = some (out', rest) ∧ out = cs ++ out' := by
  obtain ⟨⟨out', rest'⟩, hx, heq⟩ := Option.map_eq_some_iff.mp h
  cases heq
  exact ⟨out', hx, rfl⟩

/-- The escape of an unsafe character is a hexadecimal escape. -/
theorem compactString_escape (hc : c ∈ htmlUnsafe) (rest : List Char) :
    compactString ('\x5c' :: 'u' :: hexDigits4 c.toNat ++ rest) =
      withText ('\x5c' :: 'u' :: hexDigits4 c.toNat) (compactString rest) := by
  have hhex := hexValue4_hexDigits4 (toNat_lt_of_mem_htmlUnsafe hc)
  simp only [hexDigits4, List.cons_append, List.nil_append] at hhex ⊢
  rw [compactString, hhex]
  rfl

theorem compactString_plain (hquote : c ≠ '\x22') (hslash : c ≠ '\x5c')
    (hc : ¬ c.toNat < 32) (hsafe : c ∉ htmlUnsafe) (rest : List Char) :
    compactString (c :: rest) = withText [c] (compactString rest) := by
  rw [compactString, if_neg hc, if_neg hsafe]
  · exact hquote
  · intro a b d e rest' h
    exact absurd h hslash
  · intro a rest' h
    exact absurd h hslash

theorem compactString_letter (hc : (unescapeChar c).isSome = true) (rest : List Char) :
    compactString ('\x5c' :: c :: rest) = withText ['\x5c', c] (compactString rest) := by
  have hu : c ≠ 'u' := by
    rintro rfl
    revert hc
    decide
  rw [compactString, if_pos hc]
  intro a b d e rest' h
  exact absurd h hu

/-- The rest of a string that was written is written as it is. -/
theorem compactString_append (h : compactString cs = some (out, rest))
    (rest' : List Char) : compactString (out ++ rest') = some (out, rest') := by
  induction cs using compactString.induct generalizing out with
  | case1 => cases h
  | case2 tail =>
    cases h
    rfl
  | case3 a b c d tail hhex ih =>
    rw [compactString, if_pos hhex] at h
    obtain ⟨out', htail, rfl⟩ := withText_eq_some h
    simp only [List.cons_append, List.nil_append]
    rw [compactString, if_pos hhex, ih htail]
    rfl
  | case4 a b c d tail hhex =>
    rw [compactString, if_neg hhex] at h
    cases h
  | case5 c tail hnot hesc ih =>
    rw [compactString, if_pos hesc] at h
    · obtain ⟨out', htail, rfl⟩ := withText_eq_some h
      simp only [List.cons_append, List.nil_append]
      rw [compactString_letter hesc, ih htail]
      rfl
    · exact hnot
  | case6 c tail hnot hesc =>
    rw [compactString, if_neg hesc] at h
    · cases h
    · exact hnot
  | case7 c tail h1 h2 h3 hlt =>
    rw [compactString, if_pos hlt] at h
    · cases h
    all_goals assumption
  | case8 c tail h1 h2 h3 hlt hmark ih =>
    rw [compactString, if_neg hlt, if_pos hmark] at h
    · obtain ⟨out', htail, rfl⟩ := withText_eq_some h
      rw [List.append_assoc, compactString_escape hmark, ih htail]
      rfl
    all_goals assumption
  | case9 c tail h1 h2 h3 hlt hsafe ih =>
    rw [compactString, if_neg hlt, if_neg hsafe] at h
    · obtain ⟨out', htail, rfl⟩ := withText_eq_some h
      have hslash : c ≠ '\x5c' := by
        rintro rfl
        -- only a backslash at the end of the text is left, and that ends no string
        cases tail with
        | nil => cases htail
        | cons e tail' => exact h3 e tail' rfl rfl
      rw [List.append_assoc, List.singleton_append, compactString_plain h1 hslash hlt hsafe, ih htail]
      rfl
    all_goals assumption

/-- The characters of a string that stand for themselves. -/
theorem compactString_of_plain (rest : List Char)
    (h : ∀ c ∈ cs, c ≠ '\x22' ∧ c ≠ '\x5c' ∧ ¬ c.toNat < 32 ∧ c ∉ htmlUnsafe) :
    compactString (cs ++ '\x22' :: rest) = some (cs ++ ['\x22'], rest) := by
  induction cs with
  | nil => rfl
  | cons c cs ih =>
    obtain ⟨hquote, hslash, hlt, hsafe⟩ := h c List.mem_cons_self
    rw [List.cons_append, compactString_plain hquote hslash hlt hsafe,
      ih fun c' hc' => h c' (List.mem_cons_of_mem c hc')]
    rfl

theorem compactName_append (h : compactName cs = some (out, rest)) (rest' : List Char) :
    compactName (out ++ rest') = some (out, rest') ∧ ∃ out', out = '\x22' :: out' := by
  rw [compactName] at h
  split at h
  · obtain ⟨⟨text, after⟩, hstring, hcolon⟩ := Option.bind_eq_some_iff.mp h
    split at hcolon
    · cases hcolon
      refine ⟨?_, _, rfl⟩
      rw [compactName]
      simp only [List.cons_append, List.append_assoc, List.nil_append]
      rw [skipSpace_cons (by decide)]
      simp only
      rw [compactString_append hstring, Option.bind_some, skipSpace_cons (by decide)]
      rfl
    · cases hcolon
  · cases h

/-- A text that starts a value and that `write` writes as it is, before the texts that end it. -/
def Settled (write : ℕ → List Char → Option (List Char × List Char)) (ends : List Char → Prop)
    (out : List Char) : Prop :=
  (∃ c out', out = c :: out' ∧ StartsValue c) ∧ ∀ m rest', out.length ≤ m → ends rest' →
    write m (out ++ rest') = some (out, rest')

/-- What is written with `n` steps is settled. -/
structure Settles (n : ℕ) : Prop where
  value : ∀ {cs out rest : List Char}, compactValue n cs = some (out, rest) →
    Settled compactValue EndsNumber out
  items : ∀ {cs out rest : List Char}, compactItems n cs = some (out, rest) →
    Settled compactItems (fun _ => True) out
  members : ∀ {cs out rest : List Char}, compactMembers n cs = some (out, rest) →
    Settled compactMembers (fun _ => True) out

variable {n : ℕ}

/-- A text that starts like a number is written as one. -/
theorem compactValue_num (lit : NumLit) (hrest : EndsNumber rest) :
    compactValue (n + 1) (lit.text ++ rest) = some (lit.text, rest) := by
  have hskip := skipSpace_render (num lit) rest
  rw [render] at hskip
  rw [compactValue, hskip]
  have hnum : compactNumber (lit.text ++ rest) = some (lit.text, rest) := by
    rw [compactNumber, takeWhile_text_append lit hrest, if_pos lit.valid, dropWhile_text_append lit hrest]
  obtain ⟨c, cs, hcs, hc⟩ := lit.exists_cons
  rw [hcs] at hnum ⊢
  -- the other branches start with a character that no literal starts with
  split
  case h_7 => exact hnum
  all_goals
    next heq =>
      rw [(List.cons.inj heq).1] at hc
      cases hc

theorem startsValue_of_mem (h : c ∈ ['n', 't', 'f', '\x22', '[', '\x7b']) :
    StartsValue c := by
  have hall : ['n', 't', 'f', '\x22', '[', '\x7b'].all
      (fun d => !isSpace d && d != ']' && d != '\x7d') = true := by decide
  simpa [StartsValue, and_assoc] using List.all_eq_true.mp hall c h

/-- A text of at least one character is written with at least one step. -/
theorem exists_succ {m : ℕ} (hm : (c :: out).length ≤ m) :
    ∃ k, m = k + 1 ∧ out.length ≤ k :=
  ⟨m - 1, by simp at hm; omega, by simp at hm; omega⟩

/-- A text is settled when, past its first character, one more step writes it. -/
theorem settled_cons (hc : c ∈ ['n', 't', 'f', '\x22', '[', '\x7b'])
    (h : ∀ k rest', out.length ≤ k → compactValue (k + 1) (c :: out ++ rest') = some (c :: out, rest')) :
    Settled compactValue EndsNumber (c :: out) := by
  refine ⟨⟨c, out, rfl, startsValue_of_mem hc⟩, fun m rest' hm _ => ?_⟩
  obtain ⟨k, rfl, hk⟩ := exists_succ hm
  exact h k rest' hk

theorem Settles.value_succ (ih : Settles n) (h : compactValue (n + 1) cs = some (out, rest)) :
    Settled compactValue EndsNumber out := by
  rw [compactValue] at h
  split at h
  · cases h
    exact settled_cons (by decide) fun k rest' _ => rfl
  · cases h
    exact settled_cons (by decide) fun k rest' _ => rfl
  · cases h
    exact settled_cons (by decide) fun k rest' _ => rfl
  · obtain ⟨out', hstring, rfl⟩ := withText_eq_some h
    rw [List.singleton_append]
    refine settled_cons (by decide) fun k rest' _ => ?_
    rw [compactValue, List.cons_append, skipSpace_cons (by decide)]
    simp only
    rw [compactString_append hstring]
    rfl
  · split at h
    · cases h
      exact settled_cons (by decide) fun k rest' _ => rfl
    · obtain ⟨out', hitems, rfl⟩ := withText_eq_some h
      obtain ⟨⟨c, out'', rfl, hc⟩, hsettle⟩ := ih.items hitems
      rw [List.singleton_append]
      refine settled_cons (by decide) fun k rest' hk => ?_
      rw [compactValue, List.cons_append, skipSpace_cons (by decide)]
      simp only [List.cons_append, skipSpace_cons hc.1]
      split
      · next heq => exact absurd (List.cons.inj heq).1 hc.2.1
      · rw [← List.cons_append, hsettle k rest' hk trivial]
        rfl
  · split at h
    · cases h
      exact settled_cons (by decide) fun k rest' _ => rfl
    · obtain ⟨out', hmembers, rfl⟩ := withText_eq_some h
      obtain ⟨⟨c, out'', rfl, hc⟩, hsettle⟩ := ih.members hmembers
      rw [List.singleton_append]
      refine settled_cons (by decide) fun k rest' hk => ?_
      rw [compactValue, List.cons_append, skipSpace_cons (by decide)]
      simp only [List.cons_append, skipSpace_cons hc.1]
      split
      · next heq => exact absurd (List.cons.inj heq).1 hc.2.2
      · rw [← List.cons_append, hsettle k rest' hk trivial]
        rfl
  · rw [compactNumber] at h
    split_ifs at h with hnum
    obtain ⟨rfl, -⟩ := Prod.mk.inj (Option.some.inj h)
    obtain ⟨lit, hlit⟩ : ∃ lit : NumLit, lit.text = List.takeWhile isNumChar (skipSpace cs) :=
      ⟨⟨_, hnum⟩, rfl⟩
    rw [← hlit]
    obtain ⟨c, out', hout, hc⟩ := render_eq_cons (num lit)
    rw [render] at hout
    refine ⟨⟨c, out', hout, hc⟩, fun m rest' hm hrest => ?_⟩
    obtain ⟨k, rfl, -⟩ := exists_succ (hout ▸ hm)
    exact compactValue_num lit hrest

theorem Settles.items_succ (ih : Settles n) (h : compactItems (n + 1) cs = some (out, rest)) :
    Settled compactItems (fun _ => True) out := by
  rw [compactItems] at h
  obtain ⟨⟨text, after⟩, hvalue, h⟩ := Option.bind_eq_some_iff.mp h
  obtain ⟨⟨c, text', htext, hc⟩, hsettle⟩ := ih.value hvalue
  dsimp only at h
  have hlen : 0 < text.length := by simp [htext]
  split at h
  · obtain ⟨out', hitems, rfl⟩ := withText_eq_some h
    obtain ⟨-, hsettle'⟩ := ih.items hitems
    refine ⟨⟨c, text' ++ ',' :: out', by simp [htext], hc⟩, fun m rest' hm _ => ?_⟩
    simp only [List.length_append, List.length_singleton] at hm
    obtain ⟨k, rfl⟩ : ∃ k, m = k + 1 := ⟨m - 1, by omega⟩
    have hfirst := hsettle k (',' :: (out' ++ rest')) (by omega) (endsNumber_cons (by decide))
    rw [compactItems, List.append_assoc, List.append_assoc, List.singleton_append, hfirst,
      Option.bind_some, skipSpace_cons (by decide)]
    simp only
    rw [hsettle' k rest' (by omega) trivial]
    simp [withText]
  · cases h
    refine ⟨⟨c, text' ++ [']'], by simp [htext], hc⟩, fun m rest' hm _ => ?_⟩
    simp only [List.length_append, List.length_singleton] at hm
    obtain ⟨k, rfl⟩ : ∃ k, m = k + 1 := ⟨m - 1, by omega⟩
    have hfirst := hsettle k (']' :: rest') (by omega) (endsNumber_cons (by decide))
    rw [compactItems, List.append_assoc, List.singleton_append, hfirst, Option.bind_some,
      skipSpace_cons (by decide)]
    rfl
  · cases h

theorem Settles.members_succ (ih : Settles n) (h : compactMembers (n + 1) cs = some (out, rest)) :
    Settled compactMembers (fun _ => True) out := by
  rw [compactMembers] at h
  obtain ⟨⟨name, afterName⟩, hname, h⟩ := Option.bind_eq_some_iff.mp h
  obtain ⟨⟨text, after⟩, hvalue, h⟩ := Option.bind_eq_some_iff.mp h
  obtain ⟨-, hsettle⟩ := ih.value hvalue
  obtain ⟨-, name', htext⟩ := compactName_append hname []
  dsimp only at h
  have hlen : 0 < name.length := by simp [htext]
  split at h
  · obtain ⟨out', hmembers, rfl⟩ := withText_eq_some h
    obtain ⟨-, hsettle'⟩ := ih.members hmembers
    refine ⟨⟨'\x22', name' ++ text ++ ',' :: out', by simp [htext],
      startsValue_of_mem (by decide)⟩, fun m rest' hm _ => ?_⟩
    simp only [List.length_append, List.length_singleton] at hm
    obtain ⟨k, rfl⟩ : ∃ k, m = k + 1 := ⟨m - 1, by omega⟩
    have hfirst := hsettle k (',' :: (out' ++ rest')) (by omega) (endsNumber_cons (by decide))
    rw [compactMembers, List.append_assoc, List.append_assoc, List.append_assoc,
      (compactName_append hname _).1, Option.bind_some, List.singleton_append]
    dsimp only
    rw [hfirst, Option.bind_some, skipSpace_cons (by decide)]
    simp only
    rw [hsettle' k rest' (by omega) trivial]
    simp [withText]
  · cases h
    refine ⟨⟨'\x22', name' ++ text ++ ['\x7d'], by simp [htext],
      startsValue_of_mem (by decide)⟩, fun m rest' hm _ => ?_⟩
    simp only [List.length_append, List.length_singleton] at hm
    obtain ⟨k, rfl⟩ : ∃ k, m = k + 1 := ⟨m - 1, by omega⟩
    have hfirst := hsettle k ('\x7d' :: rest') (by omega) (endsNumber_cons (by decide))
    rw [compactMembers, List.append_assoc, List.append_assoc, (compactName_append hname _).1,
      Option.bind_some, List.singleton_append]
    dsimp only
    rw [hfirst, Option.bind_some, skipSpace_cons (by decide)]
    rfl
  · cases h

theorem settles (n : ℕ) : Settles n := by
  induction n with
  | zero =>
    constructor
    all_goals
      intro cs out rest h
      cases h
  | succ n ih => exact ⟨ih.value_succ, ih.items_succ, ih.members_succ⟩

/-- **A text that was written is written again as it is.** -/
theorem compact_compact (h : compact cs = some out) : compact out = some out := by
  rw [compact] at h
  split at h
  · next out' rest hvalue =>
    split_ifs at h
    cases h
    have hsettle := ((settles _).value hvalue).2 (out.length + 1) [] (by omega) endsNumber_nil
    rw [List.append_nil] at hsettle
    rw [compact, hsettle]
    rfl
  · cases h

/-- A quoted string of plain characters is written as it is. -/
theorem compact_quote (h : ∀ c ∈ cs, c ≠ '\x22' ∧ c ≠ '\x5c' ∧ ¬ c.toNat < 32 ∧ c ∉ htmlUnsafe) :
    compact ('\x22' :: cs ++ ['\x22']) = some ('\x22' :: cs ++ ['\x22']) := by
  have hvalue : compactValue (('\x22' :: cs ++ ['\x22']).length + 1) ('\x22' :: cs ++ ['\x22']) =
      some ('\x22' :: cs ++ ['\x22'], []) := by
    rw [compactValue, List.cons_append, skipSpace_cons (by decide)]
    simp only
    rw [compactString_of_plain [] h]
    rfl
  rw [compact, hvalue]
  rfl

end Tack.Lib.Json
