import Tack.Lib.JsonCanonical

/-!
# The value that a JSON text denotes

Two JSON texts may differ in the order of members, in members that a later one of the same name shadows,
and in the spelling of numbers, and still denote one value.  A value has its members as a map, so that
equality of values is equality of what is denoted; what a number denotes is left open.

## Main definitions

* `Lib.JsonValue` — values over an arbitrary type of numbers.
* `Lib.Json.denote` — the value of a JSON tree.
* `Lib.Json.inRange` — every number has a finite binary64 number nearest to it.
* `Lib.NumLit.value` — the exact decimal value of a literal.

## Main results

* `Lib.Json.canonical_isSome` — the trees in range have a canonical form.
* `Lib.Json.canonical_eq_iff` — canonical forms are equal exactly when the trees denote the same value
  over binary64.
-/

namespace Tack.Lib

/-- The exact value of a literal. -/
def NumLit.value (n : NumLit) : ℚ :=
  if n.text.head? = some '-' then -decimalValue digitsValue (dropMinus n.text)
  else decimalValue digitsValue (dropMinus n.text)

/-- A JSON value over numbers `ν`. -/
inductive JsonValue (ν : Type)
  | null
  | bool (b : Bool)
  | num (x : ν)
  | str (s : String)
  | arr (items : List (JsonValue ν))
  | obj (members : String → Option (JsonValue ν))

namespace Json

/-- Induction over the tree: a property of the items or members is one of the array or object. -/
theorem tree_induction {P : Json → Prop} (hnull : P null) (hbool : ∀ b, P (bool b))
    (hnum : ∀ n, P (num n)) (hstr : ∀ s, P (str s))
    (harr : ∀ items, (∀ j ∈ items, P j) → P (arr items))
    (hobj : ∀ members, (∀ m ∈ members, P m.2) → P (obj members)) : ∀ j, P j
  | null => hnull
  | bool b => hbool b
  | num n => hnum n
  | str s => hstr s
  | arr items => harr items fun j hj =>
    have : sizeOf j < 1 + sizeOf items := Nat.lt_add_left 1 (List.sizeOf_lt_of_mem hj)
    tree_induction hnull hbool hnum hstr harr hobj j
  | obj members => hobj members fun m hm =>
    have : sizeOf m.2 < 1 + sizeOf members := by
      have hlt := List.sizeOf_lt_of_mem hm
      have hsnd : sizeOf m = 1 + sizeOf m.1 + sizeOf m.2 := rfl
      omega
    tree_induction hnull hbool hnum hstr harr hobj m.2

section Denote

variable {ν : Type} (value : NumLit → ν)

mutual

/-- The value of a tree. -/
def denote : Json → JsonValue ν
  | null => .null
  | bool b => .bool b
  | num n => .num (value n)
  | str s => .str s
  | arr items => .arr (denoteItems items)
  | obj members => .obj (denoteMembers members)

def denoteItems : List Json → List (JsonValue ν)
  | [] => []
  | j :: js => denote j :: denoteItems js

/-- The value of a member; a later member of the same name counts. -/
def denoteMembers : List (String × Json) → String → Option (JsonValue ν)
  | [], _ => none
  | (n, j) :: ms, name =>
    match denoteMembers ms name with
    | some v => some v
    | none => if n = name then some (denote j) else none

end

theorem denoteItems_eq_map (items : List Json) : denoteItems value items = items.map (denote value) := by
  induction items with
  | nil => rfl
  | cons j js ih => rw [denoteItems, ih, List.map_cons]

theorem denoteMembers_eq_map (ms : List (String × Json)) (name : String) :
    denoteMembers value ms name = (lastMember name ms).map (denote value) := by
  induction ms with
  | nil => rfl
  | cons m ms ih =>
    obtain ⟨n, j⟩ := m
    rw [denoteMembers, lastMember, ih]
    cases lastMember name ms with
    | some w => rfl
    | none =>
      simp only [Option.map_none]
      split_ifs <;> rfl

theorem denote_obj_eq_iff {ms ms' : List (String × Json)} :
    denote value (obj ms) = denote value (obj ms') ↔
      ∀ name, (lastMember name ms).map (denote value) = (lastMember name ms').map (denote value) := by
  simp only [denote, JsonValue.obj.injEq, funext_iff, denoteMembers_eq_map]

end Denote

/-! ### Trees in range -/

mutual

/-- Every number has a finite binary64 number nearest to it. -/
def inRange : Json → Bool
  | num n => n.toFloat.isSome
  | arr items => inRangeItems items
  | obj members => inRangeMembers members
  | _ => true

def inRangeItems : List Json → Bool
  | [] => true
  | j :: js => inRange j && inRangeItems js

def inRangeMembers : List (String × Json) → Bool
  | [] => true
  | (_, j) :: ms => inRange j && inRangeMembers ms

end

theorem canonicalItems_isSome {items : List Json} (h : ∀ j ∈ items, (canonical j).isSome = inRange j) :
    (canonicalItems items).isSome = inRangeItems items := by
  induction items with
  | nil => rfl
  | cons j js ih =>
    rw [canonicalItems, inRangeItems, ← h j List.mem_cons_self,
      ← ih fun k hk => h k (List.mem_cons_of_mem _ hk)]
    cases canonical j with
    | none => rfl
    | some c => rw [Option.bind_some, Option.isSome_map]; rfl

theorem canonicalMembers_isSome {ms : List (String × Json)} (h : ∀ m ∈ ms, (canonical m.2).isSome = inRange m.2) :
    (canonicalMembers ms).isSome = inRangeMembers ms := by
  induction ms with
  | nil => rfl
  | cons m ms ih =>
    obtain ⟨n, j⟩ := m
    rw [canonicalMembers, inRangeMembers, ← h (n, j) List.mem_cons_self,
      ← ih fun k hk => h k (List.mem_cons_of_mem _ hk)]
    cases canonical j with
    | none => rfl
    | some c => rw [Option.bind_some, Option.isSome_map]; rfl

/-- The trees in range are those with a canonical form. -/
theorem canonical_isSome (j : Json) : (canonical j).isSome = inRange j := by
  induction j using tree_induction with
  | hnull => rfl
  | hbool b => rfl
  | hnum n => rw [canonical, Option.isSome_map, inRange]
  | hstr s => rfl
  | harr items ih => rw [canonical, Option.isSome_map, inRange, canonicalItems_isSome ih]
  | hobj ms ih => rw [canonical, Option.isSome_map, inRange, canonicalMembers_isSome ih]

/-! ### Canonical forms and values -/

/-- The canonical form of a tree decides which trees denote its value. -/
def Decides (j : Json) : Prop := ∀ k c d, canonical j = some c → canonical k = some d →
  (c = d ↔ denote NumLit.toFloat j = denote NumLit.toFloat k)

/-- What a tree is: the name of its constructor. -/
def kind : Json → ℕ
  | null => 0
  | bool _ => 1
  | num _ => 2
  | str _ => 3
  | arr _ => 4
  | obj _ => 5

theorem kind_canonical {j c : Json} (h : canonical j = some c) : kind c = kind j := by
  cases j with
  | null => cases h; rfl
  | bool b => cases h; rfl
  | str s => cases h; rfl
  | num n =>
    obtain ⟨x, -, rfl⟩ := Option.map_eq_some_iff.mp h
    rfl
  | arr items =>
    obtain ⟨cs, -, rfl⟩ := Option.map_eq_some_iff.mp h
    rfl
  | obj ms =>
    obtain ⟨cs, -, rfl⟩ := Option.map_eq_some_iff.mp h
    rfl

theorem kind_eq_of_denote {ν : Type} {value : NumLit → ν} {j k : Json}
    (h : denote value j = denote value k) : kind j = kind k := by
  cases j <;> cases k <;> first | rfl | (simp [denote] at h)

/-- Only trees of one kind need to be compared. -/
theorem decides_of_kind {j : Json} (h : ∀ k c d, kind k = kind j → canonical j = some c →
    canonical k = some d → (c = d ↔ denote NumLit.toFloat j = denote NumLit.toFloat k)) : Decides j := by
  intro k c d hc hd
  by_cases hkind : kind k = kind j
  · exact h k c d hkind hc hd
  · refine iff_of_false ?_ fun heq => hkind (kind_eq_of_denote heq).symm
    rintro rfl
    exact hkind ((kind_canonical hd).symm.trans (kind_canonical hc))

theorem decides_num (n : NumLit) : Decides (num n) := by
  refine decides_of_kind fun k c d hkind hc hd => ?_
  cases k with
  | num m =>
    obtain ⟨x, hx, rfl⟩ := Option.map_eq_some_iff.mp hc
    obtain ⟨y, hy, rfl⟩ := Option.map_eq_some_iff.mp hd
    rw [denote, denote, JsonValue.num.injEq, num.injEq, hx, hy, Option.some.injEq]
    refine ⟨fun h => ?_, fun h => by rw [h]⟩
    have hread := congrArg NumLit.toFloat h
    rw [Float64.toFloat_toNumLit, Float64.toFloat_toNumLit] at hread
    exact Option.some.inj hread
  | null | bool | str | arr | obj => cases hkind

theorem canonicalItems_eq_iff {items items' cs ds : List Json} (h : ∀ j ∈ items, Decides j)
    (hcs : canonicalItems items = some cs) (hds : canonicalItems items' = some ds) :
    cs = ds ↔ items.map (denote NumLit.toFloat) = items'.map (denote NumLit.toFloat) := by
  induction items generalizing items' cs ds with
  | nil =>
    cases hcs
    cases items' with
    | nil => cases hds; exact iff_of_true rfl rfl
    | cons k ks =>
      obtain ⟨d, -, hrest⟩ := Option.bind_eq_some_iff.mp hds
      obtain ⟨ds, -, rfl⟩ := Option.map_eq_some_iff.mp hrest
      exact iff_of_false (List.cons_ne_nil _ _).symm (List.cons_ne_nil _ _).symm
  | cons j js ih =>
    obtain ⟨c, hc, hrest⟩ := Option.bind_eq_some_iff.mp hcs
    obtain ⟨cs, hcs', rfl⟩ := Option.map_eq_some_iff.mp hrest
    cases items' with
    | nil =>
      cases hds
      exact iff_of_false (List.cons_ne_nil _ _) (List.cons_ne_nil _ _)
    | cons k ks =>
      obtain ⟨d, hd, hrest⟩ := Option.bind_eq_some_iff.mp hds
      obtain ⟨ds, hds', rfl⟩ := Option.map_eq_some_iff.mp hrest
      rw [List.map_cons, List.map_cons, List.cons_eq_cons, List.cons_eq_cons,
        h j List.mem_cons_self k c d hc hd, ih (fun l hl => h l (List.mem_cons_of_mem _ hl)) hcs' hds']

theorem decides_arr {items : List Json} (h : ∀ j ∈ items, Decides j) : Decides (arr items) := by
  refine decides_of_kind fun k c d hkind hc hd => ?_
  cases k with
  | arr items' =>
    obtain ⟨cs, hcs, rfl⟩ := Option.map_eq_some_iff.mp hc
    obtain ⟨ds, hds, rfl⟩ := Option.map_eq_some_iff.mp hd
    rw [denote, denote, arr.injEq, JsonValue.arr.injEq, denoteItems_eq_map, denoteItems_eq_map,
      canonicalItems_eq_iff h hcs hds]
  | null | bool | num | str | obj => cases hkind

theorem decides_obj {ms : List (String × Json)} (h : ∀ m ∈ ms, Decides m.2) : Decides (obj ms) := by
  refine decides_of_kind fun k c d hkind hc hd => ?_
  cases k with
  | obj ms' =>
    rw [canonical_obj_eq_iff hc hd, denote_obj_eq_iff]
    refine forall_congr' fun name => ?_
    cases hj : lastMember name ms with
    | none =>
      cases lastMember name ms' with
      | none => exact iff_of_true rfl rfl
      | some k => exact iff_of_false (by simp) (by simp)
    | some j =>
      cases hk : lastMember name ms' with
      | none => exact iff_of_false (by simp) (by simp)
      | some k =>
        obtain ⟨c', hc'⟩ := canonical_lastMember hc hj
        obtain ⟨d', hd'⟩ := canonical_lastMember hd hk
        rw [Option.map_some, Option.map_some, Option.map_some, Option.map_some, Option.some.injEq,
          Option.some.injEq, hc', hd', Option.some.injEq]
        exact h (name, j) (mem_of_lastMember hj) k c' d' hc' hd'
  | null | bool | num | str | arr => cases hkind

/-- **Canonical forms decide equality of values over binary64.** -/
theorem canonical_eq_iff {j k c d : Json} (hc : canonical j = some c) (hd : canonical k = some d) :
    c = d ↔ denote NumLit.toFloat j = denote NumLit.toFloat k := by
  suffices hdecides : Decides j from hdecides k c d hc hd
  clear hc hd
  induction j using tree_induction with
  | hnull =>
    refine decides_of_kind fun k c d hkind hc hd => ?_
    cases k with
    | null => cases hc; cases hd; exact iff_of_true rfl rfl
    | bool | num | str | arr | obj => cases hkind
  | hbool b =>
    refine decides_of_kind fun k c d hkind hc hd => ?_
    cases k with
    | bool b' => cases hc; cases hd; simp [denote]
    | null | num | str | arr | obj => cases hkind
  | hnum n => exact decides_num n
  | hstr s =>
    refine decides_of_kind fun k c d hkind hc hd => ?_
    cases k with
    | str s' => cases hc; cases hd; simp [denote]
    | null | bool | num | arr | obj => cases hkind
  | harr items ih => exact decides_arr ih
  | hobj ms ih => exact decides_obj ih

/-! ### Nesting -/

mutual

/-- How deep arrays and objects are nested. -/
def depth : Json → ℕ
  | arr items => depthItems items + 1
  | obj members => depthMembers members + 1
  | _ => 0

def depthItems : List Json → ℕ
  | [] => 0
  | j :: js => max (depth j) (depthItems js)

def depthMembers : List (String × Json) → ℕ
  | [] => 0
  | (_, j) :: ms => max (depth j) (depthMembers ms)

end

end Json

end Tack.Lib
