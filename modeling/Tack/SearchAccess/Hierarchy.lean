import Mathlib
import Tack.Lib.FirstSeen
import Tack.Lib.Trail
import Tack.Nodes.Records

/-!
# Entry points of search resources

Search access follows from the entry point of a resource: the nearest node with an entry-point type on
its way up the hierarchy, or the root when there is none.  `EntryPoints` walks up from many resources at
once, level by level, and asks the reader in one batch for the nodes that no earlier level read.

## Main definitions

* `SearchAccess.AncestorState`, `SearchAccess.HierarchyReader` — what a reader says about a node.
* `SearchAccess.HierarchyWalk.step` — one step of the walk of a resource.
* `SearchAccess.readLevel`, `SearchAccess.entryPoints` — the walks of many resources.
* `SearchAccess.Up`, `SearchAccess.Resolves` — the hierarchy as a relation, and its entry points.

## Main results

* `SearchAccess.levels_eq` — the shared walks are the walks of the single resources.
* `SearchAccess.HierarchyWalk.Phase.outcome` — how the walk of a resource ends.
* `SearchAccess.entryPoints_exact` — entry points are exact, independent and read once.
-/

namespace Tack.SearchAccess

open Lib Relation
open Nodes (NodeType)

/-! ### The stored hierarchy -/

def featureIsEntryPoint : String := "is_entry_point"

/-- A node in its organization. -/
structure OrgNode where
  orgId : UUID
  nodeId : UUID
  deriving DecidableEq

/-- `AncestorState`: the view, the type and the `child_of` targets of a node. -/
structure AncestorState where
  present : Bool
  orgId : UUID
  typeKey : String
  type : Option NodeType
  childOfs : List UUID
  deriving DecidableEq

/-- The zero value. -/
def AncestorState.zero : AncestorState := ⟨false, .nil, "", none, []⟩

/-- `hierarchyParentError`. -/
inductive HierarchyParentError
  | edges (nodeId parentId targetId : UUID)
  | noEdge (nodeId : UUID) (typeKey : String)
  deriving DecidableEq

/-- `HierarchyParent`: the one distinct target; the nil ID for a root. -/
def hierarchyParent (nodeId : UUID) (kind : Option NodeType) (childOfTargets : List UUID) :
    Except HierarchyParentError UUID := do
  let parentId ← childOfTargets.foldlM (fun parentId targetId =>
    if parentId ≠ .nil ∧ targetId ≠ parentId then throw (.edges nodeId parentId targetId)
    else pure targetId) UUID.nil
  match kind with
  | some kind =>
    if parentId = .nil ∧ kind.canLiveUnder ≠ [] then throw (.noEdge nodeId kind.typeKey)
    else pure parentId
  | none => pure parentId

/-- `hierarchyDefectError`. -/
inductive HierarchyDefect
  | cycle (nodeId : UUID)
  | missing (nodeId : UUID)
  | noType (typeKey : String)
  | parent (nodeId : UUID) (cause : HierarchyParentError)
  deriving DecidableEq

/-! ### One walk -/

/-- What was read so far. -/
abbrev Ancestors := OrgNode → Option AncestorState

/-- `hierarchyWalk`: the walk of one resource; `visited` holds the last node first. -/
structure HierarchyWalk where
  resource : OrgNode
  current : UUID
  visited : List UUID
  entry : UUID
  defect : Option HierarchyDefect
  done : Bool

namespace HierarchyWalk

/-- The walk before its first step. -/
def start (resource : OrgNode) : HierarchyWalk := ⟨resource, resource.nodeId, [], .nil, none, false⟩

def fail (w : HierarchyWalk) (defect : HierarchyDefect) : HierarchyWalk :=
  { w with defect := some defect, done := true }

def finish (w : HierarchyWalk) (entryPointId : UUID) : HierarchyWalk :=
  { w with entry := entryPointId, done := true }

/-- The node that the walk has to look at. -/
def key (w : HierarchyWalk) : OrgNode := ⟨w.resource.orgId, w.current⟩

/-- The walk marks its current node. -/
def visit (w : HierarchyWalk) : HierarchyWalk := { w with visited := w.current :: w.visited }

/-- The walk looks at the state of its current node. -/
def look (w : HierarchyWalk) (state : AncestorState) : HierarchyWalk :=
  if !state.present ∨ state.orgId ≠ w.resource.orgId then w.fail (.missing w.current)
  else match state.type with
    | none => w.fail (.noType state.typeKey)
    | some kind =>
      if featureIsEntryPoint ∈ kind.features then w.finish w.current
      else match hierarchyParent w.current state.type state.childOfs with
        | .error cause => w.fail (.parent w.current cause)
        | .ok parentId =>
          if parentId = .nil then w.finish w.current else { w with current := parentId }

/-- `step`: the walk advances by one ancestor. -/
def step (w : HierarchyWalk) (ancestors : Ancestors) : HierarchyWalk :=
  if w.current ∈ w.visited then w.fail (.cycle w.current)
  else w.visit.look ((ancestors w.key).getD .zero)

end HierarchyWalk

/-! ### The walks of many resources -/

/-- `HierarchyReader.Ancestors`: one batched read. -/
abbrev HierarchyReader (ε : Type) := List OrgNode → Except ε Ancestors

inductive ReadError (ε : Type)
  | read (count : ℕ) (err : ε)
  | noState (nodeId : UUID)

/-- What was read, and the nodes that the reader was asked for. -/
structure Reading where
  ancestors : Ancestors
  asked : List OrgNode

variable {ε : Type}

/-- `unfinished`. -/
def unfinished (walks : List HierarchyWalk) : List HierarchyWalk := walks.filter fun w => !w.done

/-- The current nodes of the walks that were not read, each once. -/
def unreadAncestors (active : List HierarchyWalk) (ancestors : Ancestors) : List OrgNode :=
  firstSeen [] ((active.map HierarchyWalk.key).filter fun key => (ancestors key).isNone)

/-- The states of a batch go into what was read. -/
def keepStates (states : Ancestors) : List OrgNode → Ancestors → Except (ReadError ε) Ancestors
  | [], ancestors => pure ancestors
  | key :: keys, ancestors =>
    match states key with
    | none => throw (.noState key.nodeId)
    | some state => keepStates states keys (Function.update ancestors key (some state))

/-- `readLevel`: the nodes of a level that were not read are read in one batch. -/
def readLevel (reader : HierarchyReader ε) (active : List HierarchyWalk) (reading : Reading) :
    Except (ReadError ε) Reading :=
  let unread := unreadAncestors active reading.ancestors
  if unread = [] then pure reading
  else match reader unread with
    | .error err => throw (.read unread.length err)
    | .ok states => do
      let ancestors ← keepStates states unread reading.ancestors
      pure ⟨ancestors, reading.asked ++ unread⟩

/-- A walk in progress takes a step. -/
def advance (ancestors : Ancestors) (w : HierarchyWalk) : HierarchyWalk :=
  if w.done then w else w.step ancestors

/-- The loop over the levels; `none` when `fuel` levels do not suffice. -/
def levels (reader : HierarchyReader ε) :
    ℕ → List HierarchyWalk → Reading → Option (Except (ReadError ε) (List HierarchyWalk × Reading))
  | 0, _, _ => none
  | fuel + 1, walks, reading =>
    if (unfinished walks).isEmpty then some (.ok (walks, reading))
    else match readLevel reader (unfinished walks) reading with
      | .error err => some (.error err)
      | .ok reading => levels reader fuel (walks.map (advance reading.ancestors)) reading

/-- The two maps that `EntryPoints` returns, and the nodes that it asked for. -/
structure EntryPoints where
  entries : OrgNode → Option UUID
  defects : OrgNode → Option HierarchyDefect
  asked : List OrgNode

/-- The outcome of a walk goes into the maps. -/
def EntryPoints.record (result : EntryPoints) (w : HierarchyWalk) : EntryPoints :=
  match w.defect with
  | some defect => { result with defects := Function.update result.defects w.resource (some defect) }
  | none => { result with entries := Function.update result.entries w.resource (some w.entry) }

/-- `EntryPoints`. -/
def entryPoints (reader : HierarchyReader ε) (fuel : ℕ) (resources : List OrgNode) :
    Option (Except (ReadError ε) EntryPoints) :=
  (levels reader fuel (resources.map .start) ⟨fun _ => none, []⟩).map fun outcome => do
    let (walks, reading) ← outcome
    pure (walks.foldl EntryPoints.record ⟨fun _ => none, fun _ => none, reading.asked⟩)

/-! ### The hierarchy as a relation -/

/-- A reader that answers from one state. -/
def AnswersFrom (reader : HierarchyReader ε) (state : OrgNode → AncestorState) : Prop :=
  ∀ nodes, ∃ states, reader nodes = .ok states ∧ ∀ key ∈ nodes, states key = some (state key)

/-- A reader that answers from one state as long as it is asked within some organizations. -/
def AnswersWithin (orgs : Set UUID) (reader : HierarchyReader ε) (state : OrgNode → AncestorState) :
    Prop :=
  ∀ nodes, (∀ n ∈ nodes, n.orgId ∈ orgs) →
    ∃ states, reader nodes = .ok states ∧ ∀ key ∈ nodes, states key = some (state key)

variable {reader : HierarchyReader ε} {e : UUID} {orgs : Set UUID} {reading : Reading} {w : HierarchyWalk}
  {r : OrgNode}

theorem AnswersFrom.within {state : OrgNode → AncestorState}
    (h : AnswersFrom reader state) (orgs : Set UUID) : AnswersWithin orgs reader state :=
  fun nodes _ => h nodes

section hierarchy

variable (state : OrgNode → AncestorState) (orgId : UUID)

/-- The node exists in the organization and has a type. -/
def Stands (nodeId : UUID) (kind : NodeType) : Prop :=
  (state ⟨orgId, nodeId⟩).present ∧ (state ⟨orgId, nodeId⟩).orgId = orgId ∧
    (state ⟨orgId, nodeId⟩).type = some kind

/-- The parent that the hierarchy rule accepts; the nil ID for a root. -/
def Under (nodeId parentId : UUID) : Prop :=
  ∃ kind, Stands state orgId nodeId kind ∧ featureIsEntryPoint ∉ kind.features ∧
    hierarchyParent nodeId (some kind) (state ⟨orgId, nodeId⟩).childOfs = .ok parentId

/-- One step up the hierarchy below the entry points. -/
def Up (nodeId parentId : UUID) : Prop := Under state orgId nodeId parentId ∧ parentId ≠ .nil

def IsEntryPoint (nodeId : UUID) : Prop :=
  ∃ kind, Stands state orgId nodeId kind ∧ featureIsEntryPoint ∈ kind.features

/-- A node without a parent that is no entry point. -/
def IsRoot (nodeId : UUID) : Prop := Under state orgId nodeId .nil

/-- The first entry point on the way up, or the root when there is none. -/
def Resolves (nodeId entryPointId : UUID) : Prop :=
  ReflTransGen (Up state orgId) nodeId entryPointId ∧
    (IsEntryPoint state orgId entryPointId ∨ IsRoot state orgId entryPointId)

/-- The way up runs into a cycle below every entry point. -/
def RunsIntoCycle (nodeId : UUID) : Prop :=
  ∃ m, ReflTransGen (Up state orgId) nodeId m ∧ TransGen (Up state orgId) m m

end hierarchy

variable {state : OrgNode → AncestorState} {orgId nodeId : UUID}

theorem Stands.unique {kind kind' : NodeType} (h : Stands state orgId nodeId kind)
    (h' : Stands state orgId nodeId kind') : kind = kind' :=
  Option.some.inj (h.2.2.symm.trans h'.2.2)

theorem Under.unique {p q : UUID} (hp : Under state orgId nodeId p) (hq : Under state orgId nodeId q) :
    p = q := by
  obtain ⟨kind, hstands, -, hparent⟩ := hp
  obtain ⟨kind', hstands', -, hparent'⟩ := hq
  obtain rfl := hstands.unique hstands'
  exact Except.ok.inj (hparent.symm.trans hparent')

theorem up_rightUnique (state : OrgNode → AncestorState) (orgId : UUID) :
    Relator.RightUnique (Up state orgId) := fun _ _ _ hp hq => hp.1.unique hq.1

theorem not_up_of_isEntryPoint (h : IsEntryPoint state orgId nodeId) (p : UUID) :
    ¬Up state orgId nodeId p := by
  rintro ⟨⟨kind, hstands, hnot, -⟩, -⟩
  obtain ⟨kind', hstands', hfeature⟩ := h
  exact hnot (hstands.unique hstands' ▸ hfeature)

theorem not_up_of_isRoot (h : IsRoot state orgId nodeId) (p : UUID) : ¬Up state orgId nodeId p :=
  fun hup => hup.2 (hup.1.unique h)

theorem Resolves.not_up (h : Resolves state orgId nodeId e) (p : UUID) :
    ¬Up state orgId e p :=
  h.2.elim (fun he => not_up_of_isEntryPoint he p) fun hr => not_up_of_isRoot hr p

/-- A resource has one entry point. -/
theorem Resolves.unique {e' : UUID} (h : Resolves state orgId nodeId e)
    (h' : Resolves state orgId nodeId e') : e = e' :=
  eq_of_end (up_rightUnique state orgId) h.1 h.not_up h'.1 h'.not_up

theorem Resolves.not_runsIntoCycle (h : Resolves state orgId nodeId e) :
    ¬RunsIntoCycle state orgId nodeId := fun ⟨_, hm, hcycle⟩ =>
  not_cycle_of_end (up_rightUnique state orgId) h.1 h.not_up hm hcycle

/-- A node from which no entry point follows. -/
def IsDefective (state : OrgNode → AncestorState) (orgId nodeId : UUID) : Prop :=
  (∀ p, ¬Under state orgId nodeId p) ∧ ¬IsEntryPoint state orgId nodeId

theorem isDefective_of_not_stands (h : ∀ kind, ¬Stands state orgId nodeId kind) :
    IsDefective state orgId nodeId :=
  ⟨fun _ ⟨kind, hstands, _⟩ => h kind hstands, fun ⟨kind, hstands, _⟩ => h kind hstands⟩

/-- **A way up that reaches a defective node** resolves to nothing and runs into no cycle. -/
theorem IsDefective.not_resolves {m : UUID} (h : IsDefective state orgId m)
    (hm : ReflTransGen (Up state orgId) nodeId m) :
    (∀ e, ¬Resolves state orgId nodeId e) ∧ ¬RunsIntoCycle state orgId nodeId := by
  have hend : ∀ p, ¬Up state orgId m p := fun p hup => h.1 p hup.1
  refine ⟨fun e he => ?_, fun ⟨_, hc, hcycle⟩ =>
    not_cycle_of_end (up_rightUnique state orgId) hm hend hc hcycle⟩
  obtain rfl := eq_of_end (up_rightUnique state orgId) hm hend he.1 he.not_up
  exact he.2.elim h.2 (h.1 _)

/-! ### The walk of one resource -/

namespace HierarchyWalk

/-- What a look at the current node does. -/
theorem look_cases (w : HierarchyWalk) (state : OrgNode → AncestorState) :
    (∃ p, Up state w.resource.orgId w.current p ∧ w.look (state w.key) = { w with current := p }) ∨
    ((IsEntryPoint state w.resource.orgId w.current ∨ IsRoot state w.resource.orgId w.current) ∧
      w.look (state w.key) = w.finish w.current) ∨
    (IsDefective state w.resource.orgId w.current ∧
      ∃ d, (∀ m, d ≠ .cycle m) ∧ w.look (state w.key) = w.fail d) := by
  rw [look]
  split
  case isTrue hmissing =>
    refine .inr (.inr ⟨isDefective_of_not_stands fun kind hstands => ?_, .missing w.current,
      fun _ => nofun, rfl⟩)
    have hpresent : (state w.key).present = true := hstands.1
    have horg : (state w.key).orgId = w.resource.orgId := hstands.2.1
    simp [hpresent, horg] at hmissing
  case isFalse hhere =>
    simp only [Bool.not_eq_true', not_or, Bool.not_eq_false, not_not] at hhere
    cases htype : (state w.key).type with
    | none =>
      refine .inr (.inr ⟨isDefective_of_not_stands fun kind hstands => ?_, .noType _,
        fun _ => nofun, rfl⟩)
      exact absurd (htype.symm.trans hstands.2.2) nofun
    | some kind =>
      have hstands : Stands state w.resource.orgId w.current kind := ⟨hhere.1, hhere.2, htype⟩
      by_cases hfeature : featureIsEntryPoint ∈ kind.features
      · exact .inr (.inl ⟨.inl ⟨kind, hstands, hfeature⟩, if_pos hfeature⟩)
      have hunder : ∀ p, Under state w.resource.orgId w.current p ↔
          hierarchyParent w.current (some kind) (state w.key).childOfs = .ok p := by
        refine fun p => ⟨fun ⟨kind', hstands', _, hparent⟩ => ?_, fun h => ⟨kind, hstands, hfeature, h⟩⟩
        obtain rfl := hstands.unique hstands'
        exact hparent
      simp only [if_neg hfeature]
      cases hparent : hierarchyParent w.current (some kind) (state w.key).childOfs with
      | error cause =>
        refine .inr (.inr ⟨⟨fun p hp => ?_, ?_⟩, .parent w.current cause, fun _ => nofun, rfl⟩)
        · exact absurd (hparent.symm.trans ((hunder p).mp hp)) nofun
        · rintro ⟨kind', hstands', hfeature'⟩
          exact hfeature (hstands.unique hstands' ▸ hfeature')
      | ok p =>
        by_cases hroot : p = .nil
        · exact .inr (.inl ⟨.inr ((hunder _).mpr (hroot ▸ hparent)), if_pos hroot⟩)
        · exact .inl ⟨p, ⟨(hunder p).mpr hparent, hroot⟩, if_neg hroot⟩

/-- How far the walk of a resource has come. -/
inductive Phase (state : OrgNode → AncestorState) (r : OrgNode) (w : HierarchyWalk) : Prop
  | walking (hdone : w.done = false) (hdefect : w.defect = none) (hnodup : w.visited.Nodup)
      (htrail : Trail (Up state r.orgId) r.nodeId w.visited w.current)
  | resolved (hdone : w.done = true) (hdefect : w.defect = none)
      (hentry : Resolves state r.orgId r.nodeId w.entry)
  | cyclic (hdone : w.done = true) {m : UUID} (hdefect : w.defect = some (.cycle m))
      (hcycle : RunsIntoCycle state r.orgId r.nodeId)
  | defective (hdone : w.done = true) {d : HierarchyDefect} (hdefect : w.defect = some d)
      (hkind : ∀ m, d ≠ .cycle m) {m : UUID} (hreach : ReflTransGen (Up state r.orgId) r.nodeId m)
      (hstuck : IsDefective state r.orgId m)

/-- The walk with every node read. -/
abbrev solo (state : OrgNode → AncestorState) : HierarchyWalk → HierarchyWalk :=
  advance fun key => some (state key)

variable {w : HierarchyWalk}

theorem solo_of_done (h : w.done = true) : solo state w = w := if_pos h

theorem iterate_solo_of_done (h : w.done = true) (k : ℕ) :
    (solo state)^[k] w = w := Function.iterate_fixed (solo_of_done h) k

theorem step_resource (w : HierarchyWalk) (ancestors : Ancestors) :
    (w.step ancestors).resource = w.resource := by
  unfold step look visit fail finish
  split <;> simp only
  repeat' split
  all_goals rfl

theorem advance_resource (ancestors : Ancestors) (w : HierarchyWalk) :
    (advance ancestors w).resource = w.resource := by
  rw [advance]
  split
  · rfl
  · exact step_resource w ancestors

theorem iterate_solo_resource (k : ℕ) (w : HierarchyWalk) :
    ((solo state)^[k] w).resource = w.resource := by
  induction k with
  | zero => rfl
  | succ k ih => rw [Function.iterate_succ_apply', advance_resource, ih]

/-- **One step** of the walk. -/
theorem Phase.step {r : OrgNode} (hr : w.resource = r) (h : Phase state r w) :
    Phase state r (solo state w) := by
  subst hr
  cases h with
  | resolved hdone hdefect hentry => rw [solo_of_done hdone]; exact .resolved hdone hdefect hentry
  | cyclic hdone hdefect hcycle => rw [solo_of_done hdone]; exact .cyclic hdone hdefect hcycle
  | defective hdone hdefect hkind hreach hstuck =>
    rw [solo_of_done hdone]; exact .defective hdone hdefect hkind hreach hstuck
  | walking hdone hdefect hnodup htrail =>
    have hsolo : solo state w = w.step fun key => some (state key) := if_neg (by simp [hdone])
    rw [hsolo, HierarchyWalk.step]
    split
    case isTrue hback => exact .cyclic rfl rfl ⟨w.current, htrail.reaches, htrail.cycle hback⟩
    case isFalse hnew =>
      change Phase state w.resource (w.visit.look (state w.visit.key))
      rcases look_cases w.visit state with
        ⟨p, hup, heq⟩ | ⟨hentry, heq⟩ | ⟨hstuck, d, hkind, heq⟩
      · rw [heq]
        exact .walking hdone hdefect (List.nodup_cons.mpr ⟨hnew, hnodup⟩) (htrail.next hup)
      · rw [heq]
        exact .resolved rfl hdefect ⟨htrail.reaches, hentry⟩
      · rw [heq]
        exact .defective rfl rfl hkind htrail.reaches hstuck

/-- **A whole walk**, by induction on its steps. -/
theorem phase_iterate (state : OrgNode → AncestorState) (r : OrgNode) (k : ℕ) :
    Phase state r ((solo state)^[k] (start r)) := by
  induction k with
  | zero => exact .walking rfl rfl List.nodup_nil .start
  | succ k ih =>
    rw [Function.iterate_succ_apply']
    exact ih.step (iterate_solo_resource k (start r))

theorem length_visited_step (w : HierarchyWalk) (ancestors : Ancestors) :
    (w.step ancestors).done = true ∨ (w.step ancestors).visited.length = w.visited.length + 1 := by
  unfold step look visit fail finish
  split
  · exact .inl rfl
  · repeat' split
    all_goals first | exact .inl rfl | exact .inr rfl

theorem length_visited_iterate (state : OrgNode → AncestorState) (r : OrgNode) (k : ℕ) :
    ((solo state)^[k] (start r)).done = true ∨ ((solo state)^[k] (start r)).visited.length = k := by
  induction k with
  | zero => exact .inr rfl
  | succ k ih =>
    rw [Function.iterate_succ_apply']
    cases hdone : ((solo state)^[k] (start r)).done with
    | true => rw [solo_of_done hdone]; exact .inl hdone
    | false =>
      have hlength := ih.resolve_left (by simp [hdone])
      have hsolo : solo state ((solo state)^[k] (start r)) =
        ((solo state)^[k] (start r)).step fun key => some (state key) := if_neg (by simp [hdone])
      rw [hsolo]
      exact (length_visited_step _ _).imp_right fun h => h.trans (congrArg (· + 1) hlength)

/-- **A walk ends** after at most one step for every stored node and one more. -/
theorem done_iterate {stored : Finset OrgNode} (hstored : ∀ n, (state n).present → n ∈ stored)
    (r : OrgNode) {k : ℕ} (hk : stored.card < k) : ((solo state)^[k] (start r)).done = true := by
  rcases length_visited_iterate state r k with hdone | hlength
  · exact hdone
  rcases phase_iterate state r k with ⟨-, -, hnodup, htrail⟩ | hdone | hdone | hdone
  · have hle := htrail.length_le hnodup (stored.image OrgNode.nodeId) ?_
    · have hcard := hle.trans Finset.card_image_le
      omega
    · rintro x y ⟨⟨kind, ⟨hpresent, -⟩, -⟩, -⟩
      exact Finset.mem_image.mpr ⟨⟨r.orgId, x⟩, hstored _ hpresent, rfl⟩
  all_goals exact hdone

/-- **How a walk ends.** -/
theorem Phase.outcome {r : OrgNode} (h : Phase state r w) (hdone : w.done = true) :
    (∀ e, w.defect = none ∧ w.entry = e ↔ Resolves state r.orgId r.nodeId e) ∧
    (w.defect.isSome ↔ ¬∃ e, Resolves state r.orgId r.nodeId e) ∧
    ((∃ m, w.defect = some (.cycle m)) ↔ RunsIntoCycle state r.orgId r.nodeId) := by
  cases h with
  | walking hwalking => simp [hwalking] at hdone
  | resolved _ hdefect hentry =>
    refine ⟨fun e => ⟨?_, fun he => ⟨hdefect, hentry.unique he⟩⟩, ?_, ?_⟩
    · rintro ⟨-, rfl⟩
      exact hentry
    · simpa [hdefect] using ⟨_, hentry⟩
    · simpa [hdefect] using hentry.not_runsIntoCycle
  | cyclic _ hdefect hcycle =>
    have hnone : ∀ e, ¬Resolves state r.orgId r.nodeId e := fun e he => he.not_runsIntoCycle hcycle
    exact ⟨fun e => by simp [hdefect, hnone e], by simp [hdefect, hnone],
      ⟨fun _ => hcycle, fun _ => ⟨_, hdefect⟩⟩⟩
  | defective _ hdefect hkind hreach hstuck =>
    obtain ⟨hnone, hcycle⟩ := hstuck.not_resolves hreach
    refine ⟨fun e => by simp [hdefect, hnone e], by simp [hdefect, hnone], ?_⟩
    simp only [hdefect, Option.some.injEq, hcycle, iff_false, not_exists]
    exact hkind

end HierarchyWalk

/-! ### The shared walks -/

/-- What was read is what the state says, and nothing was asked for twice. -/
structure Reading.Faithful (state : OrgNode → AncestorState) (reading : Reading) : Prop where
  agrees : ∀ key s, reading.ancestors key = some s → s = state key
  nodup : reading.asked.Nodup
  mem_asked : ∀ key ∈ reading.asked, (reading.ancestors key).isSome

theorem keepStates_eq {states ancestors : Ancestors} {keys : List OrgNode}
    (h : ∀ key ∈ keys, states key = some (state key)) :
    (keepStates states keys ancestors : Except (ReadError ε) Ancestors) =
      .ok fun key => if key ∈ keys then some (state key) else ancestors key := by
  induction keys generalizing ancestors with
  | nil => simp [keepStates, pure, Except.pure]
  | cons key keys ih =>
    rw [keepStates, h key List.mem_cons_self]
    simp only
    rw [ih fun k hk => h k (List.mem_cons_of_mem _ hk)]
    congr 1
    funext k
    by_cases hk : k = key
    · subst hk
      simp
    · simp [hk]

/-- **One level is read**: every walk in progress finds the state of its current node. -/
theorem readLevel_ok (hreader : AnswersWithin orgs reader state) {active : List HierarchyWalk}
    (horgs : ∀ w ∈ active, w.resource.orgId ∈ orgs) (h : reading.Faithful state) :
    ∃ reading', readLevel reader active reading = .ok reading' ∧ reading'.Faithful state ∧
      ∀ w ∈ active, reading'.ancestors w.key = some (state w.key) := by
  have hmem : ∀ key, key ∈ unreadAncestors active reading.ancestors ↔
      key ∈ active.map HierarchyWalk.key ∧ reading.ancestors key = none := by
    simp [unreadAncestors, mem_firstSeen]
  have hread : ∀ key, reading.ancestors key ≠ none → reading.ancestors key = some (state key) := by
    intro key hkey
    obtain ⟨s, hs⟩ := Option.ne_none_iff_exists'.mp hkey
    rw [hs, h.agrees key s hs]
  rw [readLevel]
  by_cases hunread : unreadAncestors active reading.ancestors = []
  · refine ⟨reading, if_pos hunread, h, fun w hw => hread _ fun hnone => ?_⟩
    exact absurd ((hmem _).mpr ⟨List.mem_map_of_mem hw, hnone⟩) (hunread ▸ List.not_mem_nil)
  obtain ⟨states, hanswer, hstates⟩ := hreader (unreadAncestors active reading.ancestors) (by
    intro key hkey
    obtain ⟨w, hw, rfl⟩ := List.mem_map.mp ((hmem key).mp hkey).1
    exact horgs w hw)
  simp only [if_neg hunread, hanswer, keepStates_eq hstates]
  refine ⟨_, rfl, ⟨?_, ?_, ?_⟩, ?_⟩
  · intro key s hs
    dsimp only at hs
    split at hs
    · exact (Option.some.inj hs).symm
    · exact h.agrees key s hs
  · refine h.nodup.append (nodup_firstSeen _ _) fun key hasked hnew => ?_
    simpa [((hmem key).mp hnew).2] using h.mem_asked key hasked
  · intro key hkey
    dsimp only
    split
    · rfl
    · next hnot => exact h.mem_asked key ((List.mem_append.mp hkey).resolve_right hnot)
  · intro w hw
    dsimp only
    split
    · rfl
    · next hnot => exact hread _ fun hnone => hnot ((hmem _).mpr ⟨List.mem_map_of_mem hw, hnone⟩)

theorem advance_eq_solo {ancestors : Ancestors} (h : w.done = false → ancestors w.key = some (state w.key)) :
    advance ancestors w = HierarchyWalk.solo state w := by
  unfold HierarchyWalk.solo advance
  split
  · rfl
  · next hdone =>
    rw [HierarchyWalk.step, HierarchyWalk.step, h (by simpa using hdone)]

/-- **The shared walks are the walks of the single resources.**  By induction on the levels that the
longest walk needs. -/
theorem levels_eq (hreader : AnswersWithin orgs reader state) (k : ℕ) {walks : List HierarchyWalk}
    (horgs : ∀ w ∈ walks, w.resource.orgId ∈ orgs) (h : reading.Faithful state)
    (hdone : ∀ w ∈ walks, ((HierarchyWalk.solo state)^[k] w).done = true) :
    ∃ reading', reading'.Faithful state ∧ ∀ fuel, k < fuel →
      levels reader fuel walks reading =
        some (.ok (walks.map (HierarchyWalk.solo state)^[k], reading')) := by
  induction k generalizing walks reading with
  | zero =>
    refine ⟨reading, h, fun fuel hfuel => ?_⟩
    obtain ⟨fuel, rfl⟩ := Nat.exists_eq_succ_of_ne_zero hfuel.ne'
    have hempty : unfinished walks = [] := by
      simpa [unfinished, List.filter_eq_nil_iff] using hdone
    simp [levels, hempty]
  | succ k ih =>
    by_cases hempty : unfinished walks = []
    · have hall : ∀ w ∈ walks, w.done = true := by
        simpa [unfinished, List.filter_eq_nil_iff] using hempty
      refine ⟨reading, h, fun fuel hfuel => ?_⟩
      obtain ⟨fuel, rfl⟩ := Nat.exists_eq_succ_of_ne_zero (Nat.ne_of_gt (Nat.zero_lt_of_lt hfuel))
      have hmap : walks.map (HierarchyWalk.solo state)^[k + 1] = walks :=
        (List.map_congr_left fun w hw => HierarchyWalk.iterate_solo_of_done (hall w hw) (k + 1)).trans
          (List.map_id walks)
      rw [hmap, levels, hempty]
      rfl
    · have hactive : ∀ w ∈ unfinished walks, w.resource.orgId ∈ orgs := fun w hw =>
        horgs w (List.mem_filter.mp hw).1
      obtain ⟨reading', hlevel, h', hcurrent⟩ := readLevel_ok hreader hactive h
      have hmap : walks.map (advance reading'.ancestors) = walks.map (HierarchyWalk.solo state) := by
        refine List.map_congr_left fun w hw => advance_eq_solo fun hw' => hcurrent w ?_
        exact List.mem_filter.mpr ⟨hw, by simp [hw']⟩
      have hdone' : ∀ w ∈ walks.map (HierarchyWalk.solo state),
          ((HierarchyWalk.solo state)^[k] w).done = true := by
        simpa [Function.iterate_succ_apply] using hdone
      have horgs' : ∀ w ∈ walks.map (HierarchyWalk.solo state), w.resource.orgId ∈ orgs := by
        simpa [HierarchyWalk.advance_resource] using horgs
      obtain ⟨last, hlast, heq⟩ := ih horgs' h' hdone'
      refine ⟨last, hlast, fun fuel hfuel => ?_⟩
      obtain ⟨fuel, rfl⟩ := Nat.exists_eq_succ_of_ne_zero (Nat.ne_of_gt (Nat.zero_lt_of_lt hfuel))
      rw [levels, if_neg (by simpa using hempty), hlevel]
      simp only
      rw [hmap, heq fuel (Nat.lt_of_succ_lt_succ hfuel), List.map_map, ← Function.iterate_succ]

/-! ### Entry points -/

/-- The answer that a walk ends with. -/
def HierarchyWalk.answer (w : HierarchyWalk) : Option UUID × Option HierarchyDefect :=
  match w.defect with
  | some defect => (none, some defect)
  | none => (some w.entry, none)

theorem HierarchyWalk.answer_eq (w : HierarchyWalk) :
    w.answer = (if w.defect = none then some w.entry else none, w.defect) := by
  rw [HierarchyWalk.answer]
  cases w.defect <;> rfl

/-- The answer for one resource. -/
def EntryPoints.answer (result : EntryPoints) (r : OrgNode) : Option UUID × Option HierarchyDefect :=
  (result.entries r, result.defects r)

theorem asked_record (result : EntryPoints) (w : HierarchyWalk) :
    (result.record w).asked = result.asked := by
  rw [EntryPoints.record]
  split <;> rfl

theorem asked_foldl_record (walks : List HierarchyWalk) (result : EntryPoints) :
    (walks.foldl EntryPoints.record result).asked = result.asked := by
  induction walks generalizing result with
  | nil => rfl
  | cons w walks ih => rw [List.foldl_cons, ih, asked_record]

theorem answer_record_of_ne (result : EntryPoints)
    (h : r ≠ w.resource) : (result.record w).answer r = result.answer r := by
  rw [EntryPoints.record]
  split <;> simp [EntryPoints.answer, Function.update_of_ne h]

theorem answer_record_self {result : EntryPoints}
    (h : result.answer w.resource = (none, none) ∨ result.answer w.resource = w.answer) :
    (result.record w).answer w.resource = w.answer := by
  rw [HierarchyWalk.answer, EntryPoints.answer, Prod.mk.injEq] at h
  rw [EntryPoints.record, HierarchyWalk.answer, EntryPoints.answer]
  cases hdefect : w.defect with
  | some defect =>
    have hnone : result.entries w.resource = none := by
      rcases h with h | h
      · exact h.1
      · rw [hdefect] at h
        exact congrArg Prod.fst h
    simp [hnone]
  | none =>
    have hnone : result.defects w.resource = none := by
      rcases h with h | h
      · exact h.2
      · rw [hdefect] at h
        exact congrArg Prod.snd h
    simp [hnone]

/-- The answers of the walks, when the walks of one resource are the same. -/
theorem answer_foldl_record {walk : OrgNode → HierarchyWalk} (hwalk : ∀ r, (walk r).resource = r)
    (resources : List OrgNode) (result : EntryPoints) (r : OrgNode)
    (h : result.answer r = (none, none) ∨ result.answer r = (walk r).answer) :
    ((resources.map walk).foldl EntryPoints.record result).answer r =
      if r ∈ resources then (walk r).answer else result.answer r := by
  induction resources generalizing result with
  | nil => rfl
  | cons q resources ih =>
    rw [List.map_cons, List.foldl_cons]
    by_cases hq : r = q
    · subst hq
      have hself : (result.record (walk r)).answer r = (walk r).answer := by
        have hrecord := answer_record_self (w := walk r) (by rwa [hwalk])
        rwa [hwalk] at hrecord
      rw [ih _ (.inr hself), hself, ite_self, if_pos List.mem_cons_self]
    · have hne := answer_record_of_ne result (w := walk q) (r := r) (by rwa [hwalk])
      rw [ih _ (hne ▸ h), hne]
      simp [hq]

/-- **The answers are those of the single walks.** -/
theorem entryPoints_eq (hreader : AnswersWithin orgs reader state) {stored : Finset OrgNode}
    (hstored : ∀ n, (state n).present → n ∈ stored) (resources : List OrgNode)
    (horgs : ∀ r ∈ resources, r.orgId ∈ orgs) :
    ∃ result, (∀ fuel, stored.card + 2 ≤ fuel →
        entryPoints reader fuel resources = some (.ok result)) ∧
      result.asked.Nodup ∧
      ∀ r, result.answer r = if r ∈ resources then
        ((HierarchyWalk.solo state)^[stored.card + 1] (.start r)).answer else (none, none) := by
  have hdone : ∀ w ∈ resources.map HierarchyWalk.start,
      ((HierarchyWalk.solo state)^[stored.card + 1] w).done = true := by
    intro w hw
    obtain ⟨r, -, rfl⟩ := List.mem_map.mp hw
    exact HierarchyWalk.done_iterate hstored r (Nat.lt_succ_self _)
  have horgs' : ∀ w ∈ resources.map HierarchyWalk.start, w.resource.orgId ∈ orgs := by
    intro w hw
    obtain ⟨r, hr, rfl⟩ := List.mem_map.mp hw
    exact horgs r hr
  have hempty : Reading.Faithful state ⟨fun _ => none, []⟩ := ⟨nofun, List.nodup_nil, nofun⟩
  obtain ⟨reading, hreading, hlevels⟩ := levels_eq hreader _ horgs' hempty hdone
  rw [List.map_map] at hlevels
  refine ⟨(resources.map ((HierarchyWalk.solo state)^[stored.card + 1] ∘ .start)).foldl
    EntryPoints.record ⟨fun _ => none, fun _ => none, reading.asked⟩, fun fuel hfuel => ?_, ?_,
    fun r => ?_⟩
  · rw [entryPoints, hlevels fuel hfuel]
    rfl
  · rw [asked_foldl_record]
    exact hreading.nodup
  · exact answer_foldl_record (fun r => HierarchyWalk.iterate_solo_resource _ (.start r)) resources _ r
      (.inl rfl)

/-- What the answer for a resource has to be. -/
structure EntryPoints.Exact (state : OrgNode → AncestorState) (result : EntryPoints) (r : OrgNode) :
    Prop where
  entry : ∀ e, result.entries r = some e ↔ Resolves state r.orgId r.nodeId e
  defect : (result.defects r).isSome ↔ ¬∃ e, Resolves state r.orgId r.nodeId e
  cycle : (∃ m, result.defects r = some (.cycle m)) ↔ RunsIntoCycle state r.orgId r.nodeId

theorem exact_of_answer {result : EntryPoints} {stored : Finset OrgNode}
    (hstored : ∀ n, (state n).present → n ∈ stored)
    (h : result.answer r = ((HierarchyWalk.solo state)^[stored.card + 1] (.start r)).answer) :
    result.Exact state r := by
  set w := (HierarchyWalk.solo state)^[stored.card + 1] (.start r)
  have hdone : w.done = true := HierarchyWalk.done_iterate hstored r (Nat.lt_succ_self _)
  have hphase : HierarchyWalk.Phase state r w := HierarchyWalk.phase_iterate state r _
  obtain ⟨hentry, hdefect, hcycle⟩ := hphase.outcome hdone
  obtain ⟨hentries, hdefects⟩ := Prod.mk.inj (h.trans (HierarchyWalk.answer_eq w))
  constructor
  · rw [hentries]
    exact fun e => by simpa using hentry e
  · rw [hdefects]
    exact hdefect
  · rw [hdefects]
    exact hcycle

/-- More fuel changes nothing. -/
theorem levels_mono {fuel fuel' : ℕ} (hle : fuel ≤ fuel') {walks : List HierarchyWalk}
    {out : Except (ReadError ε) (List HierarchyWalk × Reading)}
    (h : levels reader fuel walks reading = some out) : levels reader fuel' walks reading = some out := by
  induction fuel generalizing fuel' walks reading with
  | zero => exact absurd h nofun
  | succ fuel ih =>
    obtain ⟨fuel', rfl⟩ := Nat.exists_eq_succ_of_ne_zero (Nat.ne_of_gt (Nat.zero_lt_of_lt hle))
    rw [levels] at h ⊢
    split_ifs at h ⊢ with hempty
    · exact h
    · cases hlevel : readLevel reader (unfinished walks) reading with
      | error err =>
        rw [hlevel] at h
        exact h
      | ok reading' =>
        rw [hlevel] at h
        exact ih (Nat.le_of_succ_le_succ hle) h

theorem entryPoints_mono {fuel fuel' : ℕ} (hle : fuel ≤ fuel')
    {resources : List OrgNode} {out : Except (ReadError ε) EntryPoints}
    (h : entryPoints reader fuel resources = some out) :
    entryPoints reader fuel' resources = some out := by
  obtain ⟨last, hlast, rfl⟩ := Option.map_eq_some_iff.mp h
  rw [entryPoints, levels_mono hle hlast, Option.map_some]

instance : Finite OrgNode :=
  Finite.of_injective (fun n => (n.orgId.toFin, n.nodeId.toFin)) fun a b h => by
    obtain ⟨horg, hnode⟩ := Prod.mk.inj h
    cases a
    cases b
    congr
    · exact BitVec.eq_of_toFin_eq horg
    · exact BitVec.eq_of_toFin_eq hnode

/-- **The entry point of one resource**: whatever the fuel, the result is exact, and enough fuel gives
one. -/
theorem entryPoints_single (hreader : AnswersWithin {r.orgId} reader state) :
    ∃ result, result.Exact state r ∧
      (∃ enough, ∀ fuel, enough ≤ fuel → entryPoints reader fuel [r] = some (.ok result)) ∧
      ∀ fuel out, entryPoints reader fuel [r] = some out → out = .ok result := by
  obtain ⟨stored, hstored⟩ : ∃ stored : Finset OrgNode, ∀ n, (state n).present → n ∈ stored :=
    ⟨(Set.toFinite Set.univ).toFinset, fun n _ => by simp⟩
  obtain ⟨result, hresult, -, hanswer⟩ := entryPoints_eq hreader hstored [r] (by simp)
  refine ⟨result, exact_of_answer hstored ?_, ⟨_, hresult⟩, fun fuel out hout => ?_⟩
  · rw [hanswer, if_pos (List.mem_singleton_self r)]
  · have hmax := entryPoints_mono (Nat.le_max_left fuel (stored.card + 2)) hout
    rw [hresult _ (Nat.le_max_right _ _)] at hmax
    exact (Option.some.inj hmax).symm

/-- **Entry points are exact, independent and read once.** -/
theorem entryPoints_exact (reader : HierarchyReader ε) (state : OrgNode → AncestorState)
    (hreader : AnswersFrom reader state) (stored : Finset OrgNode)
    (hstored : ∀ n, (state n).present → n ∈ stored) (resources : List OrgNode) :
    ∃ result, (∀ fuel, stored.card + 2 ≤ fuel →
        entryPoints reader fuel resources = some (.ok result)) ∧
      result.asked.Nodup ∧
      (∀ r ∉ resources, result.entries r = none ∧ result.defects r = none) ∧
      ∀ r ∈ resources,
        (∃ alone, (∀ fuel, stored.card + 2 ≤ fuel →
            entryPoints reader fuel [r] = some (.ok alone)) ∧
          result.entries r = alone.entries r ∧ result.defects r = alone.defects r) ∧
        (∀ e, result.entries r = some e ↔ Resolves state r.orgId r.nodeId e) ∧
        ((result.defects r).isSome ↔ ¬∃ e, Resolves state r.orgId r.nodeId e) ∧
        ((∃ m, result.defects r = some (.cycle m)) ↔ RunsIntoCycle state r.orgId r.nodeId) := by
  have hwithin := hreader.within Set.univ
  obtain ⟨result, hresult, hasked, hanswer⟩ := entryPoints_eq hwithin hstored resources
    fun _ _ => Set.mem_univ _
  refine ⟨result, hresult, hasked, fun r hr => ?_, fun r hr => ?_⟩
  · exact Prod.mk.inj ((hanswer r).trans (if_neg hr))
  · have hr' := (hanswer r).trans (if_pos hr)
    obtain ⟨alone, halone, -, hanswer'⟩ := entryPoints_eq hwithin hstored [r]
      fun _ _ => Set.mem_univ _
    have hexact := exact_of_answer hstored hr'
    refine ⟨⟨alone, halone, Prod.mk.inj (hr'.trans ?_)⟩, hexact.entry, hexact.defect, hexact.cycle⟩
    exact ((hanswer' r).trans (if_pos (List.mem_singleton_self r))).symm

/-- The reader of a state. -/
def readerOf (state : OrgNode → AncestorState) : HierarchyReader Empty :=
  fun _ => .ok fun key => some (state key)

theorem answersFrom_readerOf (state : OrgNode → AncestorState) : AnswersFrom (readerOf state) state :=
  fun _ => ⟨_, rfl, fun _ _ => rfl⟩

/-- Node 4 under the entry point 5, and nodes 2 and 3 under each other. -/
def smallHierarchy (n : OrgNode) : AncestorState :=
  let kind (features : List String) : NodeType := ⟨1, 1, "task", features, [], [], [], ""⟩
  if n = ⟨1, 2⟩ then ⟨true, 1, "task", some (kind []), [3]⟩
  else if n = ⟨1, 3⟩ then ⟨true, 1, "task", some (kind []), [2, 2]⟩
  else if n = ⟨1, 4⟩ then ⟨true, 1, "task", some (kind []), [5]⟩
  else if n = ⟨1, 5⟩ then ⟨true, 1, "task", some (kind [featureIsEntryPoint]), []⟩
  else .zero

theorem entryPoints_smallHierarchy :
    AnswersFrom (readerOf smallHierarchy) smallHierarchy ∧
    ∃ result, entryPoints (readerOf smallHierarchy) 6 [⟨1, 4⟩, ⟨1, 2⟩, ⟨1, 4⟩] = some (.ok result) ∧
      result.asked.Nodup ∧
      (result.entries ⟨1, 4⟩ = some 5 ↔ Resolves smallHierarchy 1 4 5) ∧
      ((∃ m, result.defects ⟨1, 2⟩ = some (.cycle m)) ↔ RunsIntoCycle smallHierarchy 1 2) := by
  have hstored : ∀ n, (smallHierarchy n).present →
      n ∈ ({⟨1, 2⟩, ⟨1, 3⟩, ⟨1, 4⟩, ⟨1, 5⟩} : Finset OrgNode) := by
    intro n hn
    by_contra hnot
    simp only [Finset.mem_insert, Finset.mem_singleton, not_or] at hnot
    obtain ⟨h2, h3, h4, h5⟩ := hnot
    simp only [smallHierarchy, if_neg h2, if_neg h3, if_neg h4, if_neg h5] at hn
    exact absurd hn (by decide)
  obtain ⟨result, hresult, hasked, -, hanswers⟩ := entryPoints_exact _ _
    (answersFrom_readerOf smallHierarchy) _ hstored [⟨1, 4⟩, ⟨1, 2⟩, ⟨1, 4⟩]
  refine ⟨answersFrom_readerOf _, result, hresult 6 (by decide), hasked, ?_, ?_⟩
  · exact (hanswers ⟨1, 4⟩ (by decide)).2.1 5
  · exact (hanswers ⟨1, 2⟩ (by decide)).2.2.2

end Tack.SearchAccess
