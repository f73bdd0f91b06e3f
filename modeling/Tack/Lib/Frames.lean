import Tack.Lib.ByteOrder

/-!
# Length-prefixed parts

A list of byte strings written one after the other, each with its length in eight bytes before it, can
be read back in one way.

## Main definitions

* `Lib.frames` — the parts with their lengths.

## Main results

* `Lib.frames_injective` — the parts are determined by the bytes.
-/

namespace Tack.Lib

/-- A part with its length in eight bytes before it. -/
def framePart (part : List Byte) : List Byte := beBytes 8 (part.length % 2 ^ 64) ++ part

/-- The parts with their lengths. -/
def frames (parts : List (List Byte)) : List Byte := parts.flatMap framePart

theorem framePart_append_inj {p q a b : List Byte} (hp : p.length < 2 ^ 64) (hq : q.length < 2 ^ 64)
    (h : framePart p ++ a = framePart q ++ b) : p = q ∧ a = b := by
  rw [framePart, framePart, List.append_assoc, List.append_assoc, Nat.mod_eq_of_lt hp,
    Nat.mod_eq_of_lt hq] at h
  obtain ⟨hlen, hrest⟩ := List.append_inj h (by simp)
  have hvalue := congrArg beValue hlen
  rw [beValue_beBytes (by simpa using hp), beValue_beBytes (by simpa using hq)] at hvalue
  exact List.append_inj hrest hvalue

theorem framePart_ne_nil (p : List Byte) : framePart p ≠ [] := by
  intro h
  have := congrArg List.length h
  simp [framePart] at this

/-- **The parts are determined by the bytes.** -/
theorem frames_injective {ps qs : List (List Byte)} (hps : ∀ p ∈ ps, p.length < 2 ^ 64)
    (hqs : ∀ q ∈ qs, q.length < 2 ^ 64) (h : frames ps = frames qs) : ps = qs := by
  induction ps generalizing qs with
  | nil =>
    cases qs with
    | nil => rfl
    | cons q qs => exact absurd (List.append_eq_nil_iff.mp h.symm).1 (framePart_ne_nil q)
  | cons p ps ih =>
    cases qs with
    | nil => exact absurd (List.append_eq_nil_iff.mp h).1 (framePart_ne_nil p)
    | cons q qs =>
      obtain ⟨rfl, hrest⟩ := framePart_append_inj (hps p List.mem_cons_self) (hqs q List.mem_cons_self)
        h
      rw [ih (fun x hx => hps x (List.mem_cons_of_mem _ hx))
        (fun x hx => hqs x (List.mem_cons_of_mem _ hx)) hrest]

end Tack.Lib
