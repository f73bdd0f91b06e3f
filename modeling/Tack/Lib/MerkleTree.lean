import Mathlib

/-!
# Trees of hashes

The nodes of a level are combined two by two into the next level, and a last node without a partner with
itself, until one node is left.  Built from symbols instead of hashes that gives a tree, whose leaves are
the elements of the first level, repeated where a node was combined with itself.  A hash determines its
tree when no two of the inputs that were hashed collide, so a root determines what is below it, however
many elements there are.

## Main definitions

* `Lib.levelPairs`, `Lib.nextLevel`, `Lib.collapse` — one level, and all of them.
* `Lib.collapsePairs` — the pairs that are combined on the way.
* `Lib.HashTree`, `Lib.TreeHash` — the symbolic tree, and how one is hashed.

## Main results

* `Lib.exists_collapse_eq` — one node is left.
* `Lib.map_collapse` — the levels of the hashes are the hashes of the levels.
* `Lib.HashTree.eq_of_hash_eq` — a hash determines its tree.
* `Lib.TreeHash.mem_iff_of_collapse_eq` — a root determines the elements of the first level.
-/

namespace Tack.Lib

variable {α β γ : Type*}

/-! ### Levels -/

/-- The nodes of a level two by two; a last one without a partner is its own. -/
def levelPairs : List β → List (β × β)
  | [] => []
  | [a] => [(a, a)]
  | a :: b :: rest => (a, b) :: levelPairs rest

def nextLevel (combine : β → β → β) (level : List β) : List β :=
  (levelPairs level).map fun pair => combine pair.1 pair.2

/-- Goes up until at most one node is left; a level has at most as many nodes as there are steps. -/
def collapse (combine : β → β → β) : ℕ → List β → List β
  | 0, level => level
  | fuel + 1, level => if level.length ≤ 1 then level else collapse combine fuel (nextLevel combine level)

/-- The pairs that are combined on the way. -/
def collapsePairs (combine : β → β → β) : ℕ → List β → List (β × β)
  | 0, _ => []
  | fuel + 1, level =>
    if level.length ≤ 1 then [] else
      levelPairs level ++ collapsePairs combine fuel (nextLevel combine level)

theorem length_levelPairs : ∀ level : List β, (levelPairs level).length = (level.length + 1) / 2
  | [] => by simp [levelPairs]
  | [_] => by simp [levelPairs]
  | _ :: _ :: rest => by
    rw [levelPairs, List.length_cons, length_levelPairs rest, List.length_cons, List.length_cons]
    omega

theorem length_nextLevel (combine : β → β → β) (level : List β) :
    (nextLevel combine level).length = (level.length + 1) / 2 := by
  rw [nextLevel, List.length_map, length_levelPairs]

/-- **One node is left.** -/
theorem exists_collapse_eq (combine : β → β → β) {fuel : ℕ} {level : List β} (hpos : 0 < level.length)
    (hfuel : level.length ≤ fuel) : ∃ root, collapse combine fuel level = [root] := by
  induction fuel generalizing level with
  | zero => omega
  | succ fuel ih =>
    rw [collapse]
    split_ifs with hone
    · exact List.length_eq_one_iff.mp (by omega)
    · exact ih (by rw [length_nextLevel]; omega) (by rw [length_nextLevel]; omega)

theorem map_levelPairs (f : β → γ) : ∀ level : List β,
    levelPairs (level.map f) = (levelPairs level).map (Prod.map f f)
  | [] => rfl
  | [_] => rfl
  | _ :: _ :: rest => by
    rw [List.map_cons, List.map_cons, levelPairs, map_levelPairs f rest]
    rfl

theorem map_nextLevel {combine : β → β → β} {combine' : γ → γ → γ} {f : β → γ}
    (hf : ∀ a b, f (combine a b) = combine' (f a) (f b)) (level : List β) :
    nextLevel combine' (level.map f) = (nextLevel combine level).map f := by
  rw [nextLevel, map_levelPairs, nextLevel, List.map_map, List.map_map]
  exact List.map_congr_left fun pair _ => (hf pair.1 pair.2).symm

theorem map_collapse {combine : β → β → β} {combine' : γ → γ → γ} {f : β → γ}
    (hf : ∀ a b, f (combine a b) = combine' (f a) (f b)) (fuel : ℕ) (level : List β) :
    collapse combine' fuel (level.map f) = (collapse combine fuel level).map f := by
  induction fuel generalizing level with
  | zero => rfl
  | succ fuel ih =>
    rw [collapse, collapse, List.length_map]
    split_ifs
    · rfl
    · rw [map_nextLevel hf, ih]

theorem map_collapsePairs {combine : β → β → β} {combine' : γ → γ → γ} {f : β → γ}
    (hf : ∀ a b, f (combine a b) = combine' (f a) (f b)) (fuel : ℕ) (level : List β) :
    collapsePairs combine' fuel (level.map f) = (collapsePairs combine fuel level).map (Prod.map f f) := by
  induction fuel generalizing level with
  | zero => rfl
  | succ fuel ih =>
    rw [collapsePairs, collapsePairs, List.length_map]
    split_ifs
    · rfl
    · rw [map_nextLevel hf, ih, map_levelPairs, List.map_append]

theorem mem_of_mem_levelPairs : ∀ {level : List β} {pair : β × β}, pair ∈ levelPairs level →
    pair.1 ∈ level ∧ pair.2 ∈ level
  | [a], pair, h => by
    rw [List.mem_singleton.mp h]
    exact ⟨List.mem_cons_self, List.mem_cons_self⟩
  | a :: b :: rest, pair, h => by
    rcases List.mem_cons.mp h with rfl | h
    · exact ⟨List.mem_cons_self, List.mem_cons_of_mem _ List.mem_cons_self⟩
    · obtain ⟨hl, hr⟩ := mem_of_mem_levelPairs h
      exact ⟨List.mem_cons_of_mem _ (List.mem_cons_of_mem _ hl),
        List.mem_cons_of_mem _ (List.mem_cons_of_mem _ hr)⟩

theorem exists_mem_levelPairs : ∀ {level : List β} {a : β}, a ∈ level →
    ∃ pair ∈ levelPairs level, a = pair.1 ∨ a = pair.2
  | [b], a, h => ⟨(b, b), List.mem_cons_self, .inl (List.mem_singleton.mp h)⟩
  | b :: c :: rest, a, h => by
    rcases List.mem_cons.mp h with rfl | h
    · exact ⟨(a, c), List.mem_cons_self, .inl rfl⟩
    rcases List.mem_cons.mp h with rfl | h
    · exact ⟨(b, a), List.mem_cons_self, .inr rfl⟩
    · obtain ⟨pair, hpair, ha⟩ := exists_mem_levelPairs h
      exact ⟨pair, List.mem_cons_of_mem _ hpair, ha⟩

/-! ### Symbolic trees -/

inductive HashTree (α : Type*)
  | leaf (a : α)
  | node (left right : HashTree α)

/-- How a tree is hashed: what is fed to the hash for a leaf and for two hashes, and the hash. -/
structure TreeHash (α ι δ : Type*) where
  leafInput : α → ι
  nodeInput : δ → δ → ι
  sum : ι → δ

namespace HashTree

def leaves : HashTree α → List α
  | leaf a => [a]
  | node left right => left.leaves ++ right.leaves

variable {ι δ : Type*} (H : TreeHash α ι δ)

def hash : HashTree α → δ
  | leaf a => H.sum (H.leafInput a)
  | node left right => H.sum (H.nodeInput left.hash right.hash)

/-- What is hashed below a node, and the node itself. -/
def inputs : HashTree α → List ι
  | leaf a => [H.leafInput a]
  | node left right => H.nodeInput (left.hash H) (right.hash H) :: (left.inputs ++ right.inputs)

end HashTree

/-- An input says whether it is one of a leaf, and what it is made of. -/
structure TreeHash.Encodes {ι δ : Type*} (H : TreeHash α ι δ) (P : δ → Prop) : Prop where
  leaf : Function.Injective H.leafInput
  node : ∀ {a b a' b'}, P a → P b → P a' → P b' → H.nodeInput a b = H.nodeInput a' b' → a = a' ∧ b = b'
  separate : ∀ x a b, H.leafInput x ≠ H.nodeInput a b
  sum : ∀ input, P (H.sum input)

section

variable {ι δ : Type*} {H : TreeHash α ι δ} {P : δ → Prop}

theorem TreeHash.Encodes.hash (henc : H.Encodes P) : ∀ tree : HashTree α, P (tree.hash H)
  | .leaf _ => henc.sum _
  | .node _ _ => henc.sum _

/-- **A hash determines its tree**, unless two inputs below it collide. -/
theorem HashTree.eq_of_hash_eq (henc : H.Encodes P) {tree tree' : HashTree α}
    (hfree : ∀ x ∈ tree.inputs H, ∀ y ∈ tree'.inputs H, H.sum x = H.sum y → x = y)
    (h : tree.hash H = tree'.hash H) : tree = tree' := by
  induction tree generalizing tree' with
  | leaf a =>
    cases tree' with
    | leaf a' =>
      rw [henc.leaf (hfree _ List.mem_cons_self _ List.mem_cons_self h)]
    | node left' right' =>
      exact absurd (hfree _ List.mem_cons_self _ List.mem_cons_self h) (henc.separate _ _ _)
  | node left right ihl ihr =>
    cases tree' with
    | leaf a' =>
      exact absurd (hfree _ List.mem_cons_self _ List.mem_cons_self h).symm (henc.separate _ _ _)
    | node left' right' =>
      obtain ⟨hl, hr⟩ := henc.node (henc.hash _) (henc.hash _) (henc.hash _) (henc.hash _)
        (hfree _ List.mem_cons_self _ List.mem_cons_self h)
      have hleft := ihl (fun x hx y hy => hfree x (List.mem_cons_of_mem _ (List.mem_append_left _ hx))
        y (List.mem_cons_of_mem _ (List.mem_append_left _ hy))) hl
      have hright := ihr (fun x hx y hy => hfree x (List.mem_cons_of_mem _ (List.mem_append_right _ hx))
        y (List.mem_cons_of_mem _ (List.mem_append_right _ hy))) hr
      rw [hleft, hright]

/-- The leaves below a level are those below the next one. -/
theorem mem_leaves_nextLevel {level : List (HashTree α)} {a : α} :
    (∃ tree ∈ nextLevel .node level, a ∈ tree.leaves) ↔ ∃ tree ∈ level, a ∈ tree.leaves := by
  constructor
  · rintro ⟨tree, hmem, ha⟩
    obtain ⟨pair, hpair, rfl⟩ := List.mem_map.mp hmem
    obtain ⟨hl, hr⟩ := mem_of_mem_levelPairs hpair
    rcases List.mem_append.mp ha with ha | ha
    · exact ⟨_, hl, ha⟩
    · exact ⟨_, hr, ha⟩
  · rintro ⟨tree, hmem, ha⟩
    obtain ⟨pair, hpair, rfl | rfl⟩ := exists_mem_levelPairs hmem
    · exact ⟨_, List.mem_map_of_mem hpair, List.mem_append_left _ ha⟩
    · exact ⟨_, List.mem_map_of_mem hpair, List.mem_append_right _ ha⟩

theorem mem_leaves_collapse {fuel : ℕ} {level : List (HashTree α)} {a : α} :
    (∃ tree ∈ collapse .node fuel level, a ∈ tree.leaves) ↔ ∃ tree ∈ level, a ∈ tree.leaves := by
  induction fuel generalizing level with
  | zero => rfl
  | succ fuel ih =>
    rw [collapse]
    split_ifs
    · rfl
    · rw [ih, mem_leaves_nextLevel]

/-- What is hashed below the last level is hashed below the first, or on the way. -/
theorem mem_inputs_collapse {fuel : ℕ} {level : List (HashTree α)} {tree : HashTree α} {x : ι}
    (htree : tree ∈ collapse .node fuel level) (hx : x ∈ tree.inputs H) :
    (∃ below ∈ level, x ∈ below.inputs H) ∨
      ∃ pair ∈ collapsePairs .node fuel level, x = H.nodeInput (pair.1.hash H) (pair.2.hash H) := by
  induction fuel generalizing level with
  | zero => exact .inl ⟨tree, htree, hx⟩
  | succ fuel ih =>
    rw [collapse] at htree
    rw [collapsePairs]
    split_ifs at htree ⊢
    · exact .inl ⟨tree, htree, hx⟩
    rcases ih htree with ⟨above, habove, hx⟩ | ⟨pair, hpair, hx⟩
    · obtain ⟨pair, hpair, rfl⟩ := List.mem_map.mp habove
      obtain ⟨hl, hr⟩ := mem_of_mem_levelPairs hpair
      rcases List.mem_cons.mp hx with rfl | hx
      · exact .inr ⟨pair, List.mem_append_left _ hpair, rfl⟩
      rcases List.mem_append.mp hx with hx | hx
      · exact .inl ⟨_, hl, hx⟩
      · exact .inl ⟨_, hr, hx⟩
    · exact .inr ⟨pair, List.mem_append_right _ hpair, hx⟩

end

namespace TreeHash

variable {ι δ : Type*} (H : TreeHash α ι δ)

def combine (a b : δ) : δ := H.sum (H.nodeInput a b)

/-- The hashes of the first level. -/
def firstLevel (elements : List α) : List δ := elements.map fun a => H.sum (H.leafInput a)

/-- Everything that is hashed over the elements. -/
def hashed (elements : List α) : List ι :=
  elements.map H.leafInput ++
    (collapsePairs H.combine elements.length (H.firstLevel elements)).map fun pair => H.nodeInput pair.1 pair.2

variable {H} {P : δ → Prop}

/-- The symbolic tree over some elements, and that it stands for their root. -/
theorem exists_tree {elements : List α} {root : δ} (hne : elements ≠ [])
    (hroot : collapse H.combine elements.length (H.firstLevel elements) = [root]) :
    ∃ tree : HashTree α, tree.hash H = root ∧ (∀ a, a ∈ tree.leaves ↔ a ∈ elements) ∧
      ∀ x ∈ tree.inputs H, x ∈ H.hashed elements := by
  have hfirst : H.firstLevel elements = (elements.map HashTree.leaf).map (HashTree.hash H) := by
    rw [List.map_map]
    rfl
  have hcombine : ∀ a b : HashTree α, (HashTree.node a b).hash H = H.combine (a.hash H) (b.hash H) :=
    fun _ _ => rfl
  obtain ⟨tree, htree⟩ : ∃ tree, collapse .node elements.length (elements.map HashTree.leaf) = [tree] :=
    exists_collapse_eq _ (by simpa using List.length_pos_iff.mpr hne) (by simp)
  refine ⟨tree, ?_, fun a => ?_, fun x hx => ?_⟩
  · rw [hfirst, map_collapse hcombine, htree] at hroot
    exact List.head_eq_of_cons_eq hroot
  · have hmem : (∃ tree ∈ collapse .node elements.length (elements.map HashTree.leaf), a ∈ tree.leaves) ↔ _ :=
      mem_leaves_collapse
    rw [htree] at hmem
    simpa [HashTree.leaves] using hmem
  · rw [hashed, hfirst, map_collapsePairs hcombine, List.map_map, List.mem_append]
    rcases mem_inputs_collapse (htree ▸ List.mem_singleton_self tree) hx with
      ⟨below, hbelow, hx⟩ | ⟨pair, hpair, rfl⟩
    · obtain ⟨a, ha, rfl⟩ := List.mem_map.mp hbelow
      rw [HashTree.inputs, List.mem_singleton] at hx
      exact .inl (List.mem_map.mpr ⟨a, ha, hx.symm⟩)
    · exact .inr (List.mem_map.mpr ⟨pair, hpair, rfl⟩)

/-- **A root determines the elements of the first level**, unless two inputs that were hashed collide. -/
theorem mem_iff_of_collapse_eq (henc : H.Encodes P) {elements elements' : List α} {root : δ}
    (hne : elements ≠ []) (hne' : elements' ≠ [])
    (hfree : ∀ x ∈ H.hashed elements, ∀ y ∈ H.hashed elements', H.sum x = H.sum y → x = y)
    (hroot : collapse H.combine elements.length (H.firstLevel elements) = [root])
    (hroot' : collapse H.combine elements'.length (H.firstLevel elements') = [root]) (a : α) :
    a ∈ elements ↔ a ∈ elements' := by
  obtain ⟨tree, hhash, hleaves, hinputs⟩ := exists_tree hne hroot
  obtain ⟨tree', hhash', hleaves', hinputs'⟩ := exists_tree hne' hroot'
  have htree : tree = tree' := HashTree.eq_of_hash_eq henc
    (fun x hx y hy => hfree x (hinputs x hx) y (hinputs' y hy)) (hhash.trans hhash'.symm)
  rw [← hleaves, htree, hleaves']

end TreeHash

end Tack.Lib
