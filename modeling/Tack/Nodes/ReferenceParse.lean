import Mathlib
import Tack.Lib.JsonBytes
import Tack.Lib.LastIndex
import Tack.Lib.Tx
import Tack.Nodes.References

/-!
# Reading references back

A template renders the reference of a node from its variable parts and its literals, and a caller's text is
parsed against the template to find those parts.  The cut for a variable part is the delimiter after it,
counted from the end of the text, so that enough delimiters are left for the parts to come.

The parser does not look at what follows the last literal: a template that ends in a literal accepts
a text with anything after it.

## Main definitions

* `Nodes.ReferenceTemplate.parse` — the values of the variable parts.
* `Nodes.ReferenceTemplate.renderBytes` — the template over byte strings.
* `Nodes.ReferenceTemplate.WellFormed` — literals are not empty and separate the variables.

## Main results

* `Nodes.reference_parse_render` — what a parse accepts, and what it finds in a rendered reference.
* `Nodes.reference_parse_leaves_rest` — a text with something after the last literal.
-/

namespace Tack.Nodes

open Lib

/-! ### Parsing -/

namespace ReferencePart

def isLiteral : ReferencePart → Bool
  | literal _ => true
  | _ => false

theorem exists_of_isLiteral {part : ReferencePart} (h : part.isLiteral = true) : ∃ value, part = literal value := by
  cases part with
  | literal value => exact ⟨value, rfl⟩
  | _ => cases h

end ReferencePart

/-- The bytes of a text of the template. -/
def textBytes (text : String) : List Byte := utf8 text.toList

structure ReferenceParseResult where
  scopeRefs : Table String (List Byte)
  props : Table String (List Byte)
  nodeTypeKey : List Byte

def ReferenceParseResult.empty : ReferenceParseResult := ⟨.empty, .empty, []⟩

inductive ReferenceParseError
  | separatorNotFound (separator : String)
  | noTextBefore (separator : String)
  | noTextLeft
  deriving DecidableEq

/-- The first literal of the parts; empty when there is none. -/
def nextReferenceLiteral : List ReferencePart → String
  | [] => ""
  | .literal value :: _ => value
  | _ :: rest => nextReferenceLiteral rest

/-- The literals equal to the delimiter after the first literal. -/
def laterLiteralCount (rest : List ReferencePart) (delimiter : String) : ℕ :=
  ((rest.dropWhile fun part => !part.isLiteral).drop 1).count (.literal delimiter)

/-- The text of a variable part and what follows its delimiter; `rest` are the parts after it. -/
def consumeReferenceSegment (rest : List ReferencePart) (remaining : List Byte) :
    Except ReferenceParseError (List Byte × List Byte) :=
  let delimiter := nextReferenceLiteral rest
  if delimiter = "" then
    if remaining = [] then .error .noTextLeft else .ok (remaining, [])
  else
    match nthIndexFromEnd (textBytes delimiter) remaining (laterLiteralCount rest delimiter + 1) with
    | none => .error (.separatorNotFound delimiter)
    | some 0 => .error (.noTextBefore delimiter)
    | some (cut + 1) =>
      .ok (remaining.take (cut + 1), remaining.drop (cut + 1 + (textBytes delimiter).length))

def ReferenceParseResult.assign (result : ReferenceParseResult) (segment : List Byte) :
    ReferencePart → ReferenceParseResult
  | .scopeRef feature => { result with scopeRefs := result.scopeRefs.set feature segment }
  | .property name => { result with props := result.props.set name segment }
  | .nodeType => { result with nodeTypeKey := segment }
  | .literal _ | .unknown _ => result

/-- The loop over the parts.  The literal after a variable part was consumed with that part; `checked` says
that the next literal was not. -/
def parseParts (checked : Bool) : List ReferencePart → List Byte → ReferenceParseResult →
    Except ReferenceParseError (ReferenceParseResult × List Byte)
  | [], remaining, result => .ok (result, remaining)
  | .literal value :: rest, remaining, result =>
    if checked then
      if (textBytes value).isPrefixOf remaining then
        parseParts true rest (remaining.drop (textBytes value).length) result
      else .error (.separatorNotFound value)
    else parseParts true rest remaining result
  | part :: rest, remaining, result => do
    let (segment, remaining) ← consumeReferenceSegment rest remaining
    parseParts false rest remaining (result.assign segment part)

/-- The values, with the text that no part took. -/
def ReferenceTemplate.parseWithRest (template : ReferenceTemplate) (input : List Byte) :
    Except ReferenceParseError (ReferenceParseResult × List Byte) :=
  parseParts true template.parts input .empty

def ReferenceTemplate.parse (template : ReferenceTemplate) (input : List Byte) :
    Except ReferenceParseError ReferenceParseResult :=
  (template.parseWithRest input).map Prod.fst

/-! ### Rendering byte strings -/

/-- What a template needs to render, with strings of any bytes. -/
structure ByteRenderInput where
  nodeTypeKey : List Byte
  props : String → RawMessage
  scopeRefs : String → List Byte

def renderPartBytes (input : ByteRenderInput) : ReferencePart → Except String (List Byte)
  | .literal value => .ok (textBytes value)
  | .nodeType =>
    if input.nodeTypeKey = [] then .error "node type part: node type key is empty"
    else .ok input.nodeTypeKey
  | .scopeRef feature =>
    if input.scopeRefs feature = [] then
      .error s!"scope reference part {quoted feature}: no ancestor declaring that feature has a reference"
    else .ok (input.scopeRefs feature)
  | .property name =>
    ((referencePropertyString (input.props name)).map textBytes).mapError fun reason =>
      s!"property part {quoted name}: {reason}"
  | .unknown kind => .error s!"unknown reference part kind {quoted kind}"

def renderPartsBytes (input : ByteRenderInput) : List ReferencePart → Except String (List Byte)
  | [] => .ok []
  | part :: rest => do
    let segment ← renderPartBytes input part
    let output ← renderPartsBytes input rest
    return segment ++ output

def ReferenceTemplate.renderBytes (template : ReferenceTemplate) (input : ByteRenderInput) :
    Except String (List Byte) :=
  (renderPartsBytes input template.parts).mapError fun reason => s!"render template {quoted template.name}: {reason}"

theorem ofList_eq_empty {cs : List Char} : String.ofList cs = "" ↔ cs = [] := by
  rw [← String.toList_inj, String.toList_ofList]
  rfl

theorem textBytes_eq_nil {text : String} : textBytes text = [] ↔ text = "" := by
  constructor
  · intro h
    have hempty : text.toList = [] := utf8_injective h
    rw [← String.ofList_toList (s := text), hempty]
  · rintro rfl
    rfl

theorem textBytes_ofList (cs : List Char) : textBytes (String.ofList cs) = utf8 cs := by
  rw [textBytes, String.toList_ofList]

/-! ### What a parse accepts -/

/-- The text of one part under given values of the variable parts. -/
def partBytes (values : ReferencePart → List Byte) : ReferencePart → List Byte
  | .literal value => textBytes value
  | part => values part

def joinParts (values : ReferencePart → List Byte) (parts : List ReferencePart) : List Byte :=
  parts.flatMap (partBytes values)

@[simp] theorem joinParts_nil (values : ReferencePart → List Byte) : joinParts values [] = [] := rfl

@[simp] theorem joinParts_cons (values : ReferencePart → List Byte) (part : ReferencePart)
    (rest : List ReferencePart) : joinParts values (part :: rest) = partBytes values part ++ joinParts values rest :=
  rfl

def assignParts (values : ReferencePart → List Byte) (parts : List ReferencePart) (result : ReferenceParseResult) :
    ReferenceParseResult :=
  parts.foldl (fun result part => result.assign (values part) part) result

/-- The delimiter after a variable part is found, counted from the end, right after the value of the part: just as
many are left as the parts to come need. -/
def CountedFromEnd (values : ReferencePart → List Byte) (leftover : List Byte) (parts : List ReferencePart) : Prop :=
  ∀ before part delimiter rest, parts = before ++ part :: .literal delimiter :: rest → part.isLiteral = false →
    nthIndexFromEnd (textBytes delimiter) (joinParts values (part :: .literal delimiter :: rest) ++ leftover)
      (rest.count (.literal delimiter) + 1) = some (values part).length

/-- **The segments of a text.**  The values, none of them empty, put the text together with the literals, and the
delimiters are those that are found from the end. -/
structure Segments (parts : List ReferencePart) (text : List Byte) (values : ReferencePart → List Byte) : Prop where
  /-- The text is that of the parts. -/
  text_eq : text = joinParts values parts
  /-- No variable part is empty. -/
  nonempty : ∀ part ∈ parts, part.isLiteral = false → values part ≠ []
  /-- No delimiter of a later part is cut off with an earlier one. -/
  counted : CountedFromEnd values [] parts

/-- The text of the literals after the last variable part. -/
def trailingLiterals (parts : List ReferencePart) : List Byte :=
  joinParts (fun _ => []) (parts.rtakeWhile ReferencePart.isLiteral)

/-- Literals are not empty and stand between the variable parts, and no variable occurs twice. -/
structure SeparatedParts (parts : List ReferencePart) : Prop where
  literals : ∀ value, .literal value ∈ parts → value ≠ ""
  separated : parts.IsChain fun a b => a.isLiteral = true ∨ b.isLiteral = true
  distinct : (parts.filter fun part => !part.isLiteral).Nodup

variable {values values' : ReferencePart → List Byte} {parts rest : List ReferencePart} {part : ReferencePart}
  {leftover : List Byte}

theorem SeparatedParts.tail (h : SeparatedParts (part :: rest)) :
    SeparatedParts rest where
  literals value hvalue := h.literals value (List.mem_cons_of_mem part hvalue)
  separated := h.separated.of_cons
  distinct := h.distinct.sublist ((List.sublist_cons_self part rest).filter _)

/-- After a variable part the template ends or goes on with a literal. -/
theorem SeparatedParts.after_variable (h : SeparatedParts (part :: rest)) (hpart : part.isLiteral = false) :
    rest = [] ∨ ∃ value rest', rest = .literal value :: rest' ∧ value ≠ "" := by
  cases rest with
  | nil => exact .inl rfl
  | cons next rest =>
    have hnext := (List.isChain_cons_cons.mp h.separated).1
    rw [hpart] at hnext
    cases next with
    | literal value => exact .inr ⟨value, rest, rfl, h.literals value (by simp)⟩
    | _ => simp [ReferencePart.isLiteral] at hnext

theorem SeparatedParts.notMem (h : SeparatedParts (part :: rest)) (hpart : part.isLiteral = false) : part ∉ rest := by
  have hnodup := h.distinct
  rw [List.filter_cons_of_pos (by simp [hpart]), List.nodup_cons] at hnodup
  exact fun hmem => hnodup.1 (List.mem_filter.mpr ⟨hmem, by simp [hpart]⟩)

theorem joinParts_congr
    (h : ∀ part ∈ parts, values part = values' part) : joinParts values parts = joinParts values' parts := by
  refine List.flatMap_congr fun part hpart => ?_
  cases part <;> simp only [partBytes, h _ hpart]

theorem CountedFromEnd.congr (hcounted : CountedFromEnd values leftover parts)
    (h : ∀ part ∈ parts, values part = values' part) : CountedFromEnd values' leftover parts := by
  intro before part delimiter rest hparts hpart
  have hmem : ∀ p ∈ part :: .literal delimiter :: rest, values p = values' p := fun p hp =>
    h p (hparts ▸ List.mem_append_right before hp)
  rw [← joinParts_congr hmem, ← hmem part List.mem_cons_self]
  exact hcounted before part delimiter rest hparts hpart

theorem CountedFromEnd.tail (h : CountedFromEnd values leftover (part :: rest)) :
    CountedFromEnd values leftover rest := fun before p delimiter rest' hrest =>
  h (part :: before) p delimiter rest' (by rw [hrest, List.cons_append])

theorem CountedFromEnd.cons (hrest : CountedFromEnd values leftover rest)
    (hpart : ∀ delimiter rest', rest = .literal delimiter :: rest' → part.isLiteral = false →
      nthIndexFromEnd (textBytes delimiter) (joinParts values (part :: rest) ++ leftover)
        (rest'.count (.literal delimiter) + 1) = some (values part).length) :
    CountedFromEnd values leftover (part :: rest) := by
  intro before p delimiter rest' hparts hp
  cases before with
  | nil =>
    obtain ⟨rfl, rfl⟩ := List.cons.inj hparts
    exact hpart delimiter rest' rfl hp
  | cons first before =>
    obtain ⟨-, hparts⟩ := List.cons.inj hparts
    exact hrest before p delimiter rest' hparts hp

theorem assignParts_congr (h : ∀ part ∈ parts, values part = values' part) (result : ReferenceParseResult) :
    assignParts values parts result = assignParts values' parts result :=
  List.foldl_ext _ _ _ fun _ part hpart => by rw [h part hpart]

/-- What was consumed before the parts: the literal after a variable part. -/
def consumedLiteral (checked : Bool) : List ReferencePart → List Byte
  | .literal value :: _ => if checked then [] else textBytes value
  | _ => []

theorem consumedLiteral_true (parts : List ReferencePart) : consumedLiteral true parts = [] := by
  cases parts with
  | nil => rfl
  | cons part rest => cases part <;> rfl

theorem consumedLiteral_variable (checked : Bool) (hpart : part.isLiteral = false)
    (rest : List ReferencePart) : consumedLiteral checked (part :: rest) = [] := by
  cases part with
  | literal value => cases hpart
  | _ => rfl

/-- A consumed segment, its delimiter and what follows. -/
theorem consumeReferenceSegment_ok {remaining segment after : List Byte}
    (hrest : rest = [] ∨ ∃ value rest', rest = .literal value :: rest' ∧ value ≠ "")
    (h : consumeReferenceSegment rest remaining = .ok (segment, after)) :
    segment ≠ [] ∧ remaining = segment ++ (consumedLiteral false rest ++ after) ∧ (rest = [] → after = []) ∧
      ∀ delimiter rest', rest = .literal delimiter :: rest' → nthIndexFromEnd (textBytes delimiter) remaining
        (rest'.count (.literal delimiter) + 1) = some segment.length := by
  rcases hrest with rfl | ⟨value, rest', rfl, hvalue⟩
  · simp only [consumeReferenceSegment, nextReferenceLiteral, if_true] at h
    split_ifs at h with hempty
    cases h
    exact ⟨hempty, by simp [consumedLiteral], fun _ => rfl, by simp⟩
  · simp only [consumeReferenceSegment, nextReferenceLiteral, hvalue, if_false] at h
    split at h
    · cases h
    · cases h
    · next cut hcut =>
      cases h
      have hsplit := append_of_nthIndexFromEnd hcut
      obtain ⟨hle, hprefix⟩ := prefix_of_nthIndexFromEnd hcut
      refine ⟨fun hnil => ?_, ?_, fun hnil => absurd hnil (List.cons_ne_nil _ _), fun delimiter rest hrest => ?_⟩
      · have hlength := congrArg List.length hnil
        rw [List.length_take, List.length_nil] at hlength
        omega
      · rw [← List.append_assoc]
        exact hsplit
      · obtain ⟨hliteral, rfl⟩ := List.cons.inj hrest
        obtain rfl := ReferencePart.literal.inj hliteral
        rw [List.length_take, Nat.min_eq_left hle]
        exact hcut

theorem parseParts_variable (hpart : part.isLiteral = false) (checked : Bool)
    (rest : List ReferencePart) (remaining : List Byte) (result : ReferenceParseResult) :
    parseParts checked (part :: rest) remaining result =
      (consumeReferenceSegment rest remaining).bind fun p => parseParts false rest p.2 (result.assign p.1 part) := by
  cases part with
  | literal value => cases hpart
  | _ => rfl

theorem partBytes_variable (values : ReferencePart → List Byte)
    (hpart : part.isLiteral = false) : partBytes values part = values part := by
  cases part with
  | literal value => cases hpart
  | _ => rfl

/-- **What a parse accepts**: the text is that of the parts under the values that were found, cut at the delimiters
counted from the end, and what no part took, which is nothing after a variable part. -/
theorem parseParts_ok (hparts : SeparatedParts parts) {checked : Bool}
    {remaining : List Byte} {result final : ReferenceParseResult}
    (h : parseParts checked parts remaining result = .ok (final, leftover)) :
    ∃ values, (∀ part ∈ parts, part.isLiteral = false → values part ≠ []) ∧
      consumedLiteral checked parts ++ remaining = joinParts values parts ++ leftover ∧
      CountedFromEnd values leftover parts ∧ final = assignParts values parts result ∧
      ((∀ part ∈ parts.getLast?, part.isLiteral = false) → (parts = [] → remaining = []) → leftover = []) := by
  induction parts generalizing checked remaining result with
  | nil =>
    cases h
    exact ⟨fun _ => [], by simp, rfl, fun before part delimiter rest h => by simp at h, rfl, fun _ hnil => hnil rfl⟩
  | cons part rest ih =>
    cases hpart : part.isLiteral with
    | true =>
      obtain ⟨value, rfl⟩ := ReferencePart.exists_of_isLiteral hpart
      -- the literal stands before what the rest reads
      have hrest : ∃ remaining', consumedLiteral checked (.literal value :: rest) ++ remaining =
          textBytes value ++ remaining' ∧ parseParts true rest remaining' result = .ok (final, leftover) := by
        rw [parseParts] at h
        cases checked with
        | false => exact ⟨remaining, rfl, h⟩
        | true =>
          simp only [if_true] at h
          split_ifs at h with hprefix
          obtain ⟨remaining', rfl⟩ := List.isPrefixOf_iff_prefix.mp hprefix
          rw [List.drop_left] at h
          exact ⟨remaining', rfl, h⟩
      obtain ⟨remaining', hconsumed, h⟩ := hrest
      obtain ⟨values, hvalues, htext, hcounted, hfinal, hleft⟩ := ih hparts.tail h
      rw [consumedLiteral_true, List.nil_append] at htext
      refine ⟨values, fun p hp hp' => ?_, ?_, hcounted.cons (by simp [ReferencePart.isLiteral]), hfinal, fun hlast _ => ?_⟩
      · rcases List.mem_cons.mp hp with rfl | hp
        · cases hp'
        · exact hvalues p hp hp'
      · rw [hconsumed, htext, joinParts_cons, List.append_assoc]
        rfl
      · cases rest with
        | nil => cases hlast _ rfl
        | cons next rest => exact hleft (by rwa [List.getLast?_cons_cons] at hlast) (by simp)
    | false =>
      rw [parseParts_variable hpart] at h
      obtain ⟨⟨segment, after⟩, hconsume, h⟩ := except_bind_ok.mp h
      obtain ⟨hsegment, hremaining, hend, hcut⟩ := consumeReferenceSegment_ok (hparts.after_variable hpart) hconsume
      obtain ⟨values, hvalues, htext, hcounted, hfinal, hleft⟩ := ih hparts.tail h
      have hnot := hparts.notMem hpart
      have hsame : ∀ p ∈ rest, values p = Function.update values part segment p := fun p hp =>
        (Function.update_of_ne (fun heq : p = part => hnot (heq ▸ hp)) segment values).symm
      have hjoin : remaining = joinParts (Function.update values part segment) (part :: rest) ++ leftover := by
        rw [hremaining, htext, joinParts_congr hsame, joinParts_cons, partBytes_variable _ hpart, Function.update_self,
          List.append_assoc]
      refine ⟨Function.update values part segment, fun p hp hp' => ?_, ?_, (hcounted.congr hsame).cons ?_, ?_,
        fun hlast _ => ?_⟩
      · rcases List.mem_cons.mp hp with rfl | hp
        · rwa [Function.update_self]
        · exact hsame p hp ▸ hvalues p hp hp'
      · rw [consumedLiteral_variable checked hpart, List.nil_append, hjoin]
      · intro delimiter rest' hrest _
        rw [← hjoin, Function.update_self]
        exact hcut delimiter rest' hrest
      · rw [hfinal, assignParts_congr hsame, assignParts, assignParts, List.foldl_cons, Function.update_self]
      · cases rest with
        | nil => exact hleft (by simp) fun _ => hend rfl
        | cons next rest => exact hleft (by rwa [List.getLast?_cons_cons] at hlast) (by simp)

/-! ### Rendering what was found -/

/-- What is read at one part, when assigning that part writes it and assigning another one leaves it. -/
theorem read_assignParts {β : Type*} (part : ReferencePart) (read : ReferenceParseResult → β) (written : List Byte → β)
    (hself : ∀ (result : ReferenceParseResult) segment, read (result.assign segment part) = written segment)
    (hother : ∀ (result : ReferenceParseResult) segment other, other ≠ part →
      read (result.assign segment other) = read result)
    (result : ReferenceParseResult) : read (assignParts values parts result) =
      if part ∈ parts then written (values part) else read result := by
  induction parts generalizing result with
  | nil => rfl
  | cons first rest ih =>
    rw [assignParts, List.foldl_cons]
    refine Eq.trans (ih _) ?_
    by_cases hrest : part ∈ rest
    · rw [if_pos hrest, if_pos (List.mem_cons_of_mem first hrest)]
    · by_cases hfirst : first = part
      · rw [if_neg hrest, hfirst, hself, if_pos List.mem_cons_self]
      · rw [if_neg hrest, hother _ _ _ hfirst, if_neg (by simp [hrest, Ne.symm hfirst])]

theorem scopeRefs_assignParts (result : ReferenceParseResult) (feature : String) :
    (assignParts values parts result).scopeRefs.get feature =
      if .scopeRef feature ∈ parts then some (values (.scopeRef feature)) else result.scopeRefs.get feature := by
  refine read_assignParts (.scopeRef feature) (fun result => result.scopeRefs.get feature) some
    (fun _ _ => Table.get_set_self _ _ _) (fun result segment other hother => ?_) result
  cases other with
  | scopeRef name => exact Table.get_set_ne _ _ fun heq => hother (congrArg ReferencePart.scopeRef heq)
  | _ => rfl

theorem props_assignParts (result : ReferenceParseResult) (name : String) :
    (assignParts values parts result).props.get name =
      if .property name ∈ parts then some (values (.property name)) else result.props.get name := by
  refine read_assignParts (.property name) (fun result => result.props.get name) some
    (fun _ _ => Table.get_set_self _ _ _) (fun result segment other hother => ?_) result
  cases other with
  | property other => exact Table.get_set_ne _ _ fun heq => hother (congrArg ReferencePart.property heq)
  | _ => rfl

theorem nodeTypeKey_assignParts (result : ReferenceParseResult) : (assignParts values parts result).nodeTypeKey =
    if .nodeType ∈ parts then values .nodeType else result.nodeTypeKey := by
  refine read_assignParts .nodeType ReferenceParseResult.nodeTypeKey id (fun _ _ => rfl)
    (fun result segment other hother => ?_) result
  cases other with
  | nodeType => exact absurd rfl hother
  | _ => rfl

/-- The parsed values as input of the renderer, properties as JSON strings. -/
def ReferenceParseResult.renderInput (result : ReferenceParseResult) : ByteRenderInput where
  nodeTypeKey := result.nodeTypeKey
  props name := ((result.props.get name).map fun value => String.ofList (quoteBytes value)).getD ""
  scopeRefs feature := (result.scopeRefs.get feature).getD []

theorem renderPartsBytes_eq {input : ByteRenderInput}
     (h : ∀ part ∈ parts, renderPartBytes input part = .ok (partBytes values part)) :
    renderPartsBytes input parts = .ok (joinParts values parts) := by
  induction parts with
  | nil => rfl
  | cons part rest ih =>
    rw [renderPartsBytes, h part List.mem_cons_self, ih fun p hp => h p (List.mem_cons_of_mem part hp)]
    rfl

theorem exists_of_renderPartsBytes_ok {input : ByteRenderInput} {output : List Byte}
    (h : renderPartsBytes input parts = .ok output) : ∀ part ∈ parts, ∃ text, renderPartBytes input part = .ok text := by
  induction parts generalizing output with
  | nil => simp
  | cons part rest ih =>
    obtain ⟨segment, hsegment, h⟩ := except_bind_ok.mp h
    obtain ⟨text, htext, -⟩ := except_bind_ok.mp h
    intro p hp
    rcases List.mem_cons.mp hp with rfl | hp
    · exact ⟨segment, hsegment⟩
    · exact ih htext p hp

/-- A string property is rendered as its text. -/
theorem referencePropertyString_quoteBytes {value : List Byte} (h : value ≠ []) :
    referencePropertyString (String.ofList (quoteBytes value)) = .ok (String.ofList (utf8Decode value)) := by
  have hquote : String.ofList (quoteBytes value) ≠ "" := fun heq => by cases ofList_eq_empty.mp heq
  have htext : String.ofList (utf8Decode value) ≠ "" := fun heq => h (utf8Decode_eq_nil.mp (ofList_eq_empty.mp heq))
  rw [referencePropertyString, if_neg hquote, String.toList_ofList, parse_quoteBytes]
  simp only [if_neg htext]

/-- The values as they are read back from JSON. -/
def readBack (values : ReferencePart → List Byte) : ReferencePart → List Byte
  | .property name => utf8 (utf8Decode (values (.property name)))
  | part => values part

theorem render_assignParts
    (hvalues : ∀ part ∈ parts, part.isLiteral = false → values part ≠ []) (hknown : ∀ kind, .unknown kind ∉ parts) :
    renderPartsBytes (assignParts values parts .empty).renderInput parts = .ok (joinParts (readBack values) parts) := by
  refine renderPartsBytes_eq fun part hpart => ?_
  cases part with
  | literal value => rfl
  | unknown kind => exact absurd hpart (hknown kind)
  | nodeType =>
    have hne := hvalues _ hpart rfl
    simp only [renderPartBytes, ReferenceParseResult.renderInput, nodeTypeKey_assignParts, if_pos hpart, if_neg hne]
    rfl
  | scopeRef feature =>
    have hne := hvalues _ hpart rfl
    simp only [renderPartBytes, ReferenceParseResult.renderInput, scopeRefs_assignParts, if_pos hpart,
      Option.getD_some, if_neg hne]
    rfl
  | property name =>
    have hne := hvalues _ hpart rfl
    simp only [renderPartBytes, ReferenceParseResult.renderInput, props_assignParts, if_pos hpart, Option.map_some,
      Option.getD_some, referencePropertyString_quoteBytes hne]
    exact congrArg Except.ok (textBytes_ofList _)

/-- The rendered text is the parsed one only when nothing was left and the properties are texts. -/
theorem valid_of_joinParts_readBack (hparts : SeparatedParts parts)
    (hend : (∀ part ∈ parts.getLast?, part.isLiteral = false) → parts ≠ [] → leftover = [])
    (h : joinParts (readBack values) parts = joinParts values parts ++ leftover) :
    leftover = [] ∧ ∀ name, .property name ∈ parts → ValidUtf8 (values (.property name)) := by
  induction parts with
  | nil =>
    rw [joinParts_nil, joinParts_nil, List.nil_append] at h
    exact ⟨h.symm, by simp⟩
  | cons part rest ih =>
    have hnext : part.isLiteral = false → BeginsChar (joinParts values rest ++ leftover) := by
      intro hpart
      rcases hparts.after_variable hpart with rfl | ⟨value, rest', rfl, hvalue⟩
      · rw [hend (by simpa using hpart) (List.cons_ne_nil _ _)]
        exact beginsChar_nil
      · obtain ⟨c, cs, hcs⟩ := List.exists_cons_of_ne_nil (fun h => hvalue (String.toList_eq_nil_iff.mp h))
        rw [joinParts_cons, partBytes, textBytes, hcs, utf8_cons, List.append_assoc, List.append_assoc]
        exact beginsChar_utf8Char_append c _
    have hend' : (∀ part ∈ rest.getLast?, part.isLiteral = false) → rest ≠ [] → leftover = [] := by
      intro hlast hne
      obtain ⟨next, rest', rfl⟩ := List.exists_cons_of_ne_nil hne
      exact hend (by rwa [List.getLast?_cons_cons]) (List.cons_ne_nil _ _)
    rw [joinParts_cons, joinParts_cons, List.append_assoc] at h
    by_cases hproperty : ∃ name, part = .property name
    · obtain ⟨name, rfl⟩ := hproperty
      have hvalid : ValidUtf8 (values (.property name)) := validUtf8_of_append_eq h.symm (hnext rfl)
      have hread : partBytes (readBack values) (.property name) = values (.property name) := hvalid
      rw [hread] at h
      obtain ⟨hleft, hrest⟩ := ih hparts.tail hend' (List.append_cancel_left h)
      refine ⟨hleft, fun other hother => ?_⟩
      rcases List.mem_cons.mp hother with heq | hother
      · rw [heq]
        exact hvalid
      · exact hrest other hother
    · have hread : partBytes (readBack values) part = partBytes values part := by
        cases part with
        | property name => exact absurd ⟨name, rfl⟩ hproperty
        | _ => rfl
      rw [hread] at h
      obtain ⟨hleft, hrest⟩ := ih hparts.tail hend' (List.append_cancel_left h)
      refine ⟨hleft, fun other hother => ?_⟩
      rcases List.mem_cons.mp hother with heq | hother
      · exact absurd ⟨other, heq.symm⟩ hproperty
      · exact hrest other hother

/-! ### Parsing what was rendered -/

/-- Every literal is one character. -/
def SingleLiterals (parts : List ReferencePart) : Prop :=
  ∀ value, .literal value ∈ parts → ∃ c, value.toList = [c]

theorem textBytes_single {value : String} {c : Char} (h : value.toList = [c]) : textBytes value = utf8Char c := by
  rw [textBytes, h, utf8_cons, utf8, List.flatMap_nil, List.append_nil]

theorem utf8Char_ne_nil (c : Char) : utf8Char c ≠ [] := by
  obtain ⟨b, bs, hc, -, -⟩ := utf8Char_eq_cons c
  rw [hc]
  exact List.cons_ne_nil b bs

/-- In the bytes of one character only that character is found. -/
theorem utf8Char_prefix_drop_utf8Char {c d : Char} {i : ℕ} (h : utf8Char c <+: (utf8Char d).drop i) :
    i = 0 ∧ c = d := by
  rw [← List.append_nil (utf8Char d)] at h
  rcases Nat.eq_zero_or_pos i with rfl | hpos
  · exact ⟨rfl, eq_of_utf8Char_begins h⟩
  · rcases Nat.lt_or_ge i (utf8Char d).length with hlt | hge
    · exact absurd h (not_utf8Char_prefix_drop hpos hlt)
    · rw [List.append_nil, List.drop_eq_nil_of_le hge] at h
      exact absurd (List.prefix_nil.mp h) (utf8Char_ne_nil c)

theorem lastIndex_utf8Char (c : Char) (front : List Byte) :
    lastIndex (utf8Char c) (front ++ utf8Char c) = some front.length := by
  have h : lastIndex (utf8Char c) (front ++ (utf8Char c ++ [])) = some front.length := by
    refine lastIndex_append_append fun i hi hprefix => ?_
    rw [List.append_nil] at hprefix
    exact hi.ne' (utf8Char_prefix_drop_utf8Char hprefix).1
  rwa [List.append_nil] at h

/-- A character is found at the last of the literals that it is, when no value has it. -/
theorem nthIndexFromEnd_joinParts (values : ReferencePart → List Byte) {delimiter : String} {c : Char}
    (hdelimiter : delimiter.toList = [c]) (hsingle : SingleLiterals parts)
    (hchain : (.literal delimiter :: parts).IsChain fun a b => a.isLiteral = true ∨ b.isLiteral = true)
    (hfree : ∀ part ∈ parts, part.isLiteral = false → ¬ utf8Char c <:+: values part) (front : List Byte) :
    nthIndexFromEnd (utf8Char c) (front ++ utf8Char c ++ joinParts values parts)
      (parts.count (.literal delimiter) + 1) = some front.length := by
  -- from the end: a literal that is the character is the last place, anything else does not matter
  induction parts using List.reverseRecOn with
  | nil =>
    rw [joinParts_nil, List.append_nil]
    exact lastIndex_utf8Char c front
  | append_singleton init last ih =>
    obtain ⟨hinitChain, -, hbefore⟩ :=
      List.isChain_append.mp (show ((.literal delimiter :: init) ++ [last]).IsChain _ from hchain)
    have hinit := ih (fun value hvalue => hsingle value (List.mem_append_left _ hvalue)) hinitChain
      fun part hpart => hfree part (List.mem_append_left _ hpart)
    have htext : front ++ utf8Char c ++ joinParts values (init ++ [last]) =
        front ++ utf8Char c ++ joinParts values init ++ partBytes values last := by
      simp [joinParts]
    rw [htext, List.count_append]
    generalize hbody : front ++ utf8Char c ++ joinParts values init = body at hinit ⊢
    cases hlast : last.isLiteral with
    | true =>
      obtain ⟨value, rfl⟩ := ReferencePart.exists_of_isLiteral hlast
      obtain ⟨d, hd⟩ := hsingle value (by simp)
      rw [partBytes, textBytes_single hd]
      by_cases heq : d = c
      · obtain rfl : value = delimiter := String.toList_injective (by rw [hd, hdelimiter, heq])
        rw [heq, List.count_singleton_self, nthIndexFromEnd_succ_succ, lastIndex_utf8Char, Option.bind_some,
          List.take_left]
        exact hinit
      · have hother : ReferencePart.literal delimiter ∉ [.literal value] := by
          rintro (_ | ⟨_, ⟨⟩⟩)
          exact heq (by simpa [hd] using hdelimiter)
        rw [List.count_eq_zero_of_not_mem hother, Nat.add_zero]
        refine (nthIndexFromEnd_append (utf8Char_ne_nil c) (fun i hprefix => ?_) _).trans hinit
        rcases Nat.lt_or_ge i body.length with hlt | hge
        · have hbegins : BeginsChar (utf8Char d) := by simpa using beginsChar_utf8Char_append d []
          exact hbegins.le_of_prefix_drop hprefix hlt
        · rw [List.drop_append, List.drop_eq_nil_of_le hge, List.nil_append] at hprefix
          exact absurd (utf8Char_prefix_drop_utf8Char hprefix).2.symm heq
    | false =>
      have hother : ReferencePart.literal delimiter ∉ [last] := by
        rintro (_ | ⟨_, ⟨⟩⟩)
        cases hlast
      rw [partBytes_variable values hlast, List.count_eq_zero_of_not_mem hother, Nat.add_zero]
      -- the text before a variable part ends in a literal
      have hends : ∃ before d, body = before ++ utf8Char d := by
        rcases List.eq_nil_or_concat init with rfl | ⟨init', previous, rfl⟩
        · exact ⟨front, c, by rw [← hbody, joinParts_nil, List.append_nil]⟩
        · have hprevious := hbefore previous
            (by rw [List.concat_eq_append, ← List.cons_append, List.getLast?_concat]; rfl) last (by simp)
          rw [hlast] at hprevious
          cases previous with
          | literal value =>
            obtain ⟨d, hd⟩ := hsingle value (by simp)
            refine ⟨front ++ utf8Char c ++ joinParts values init', d, ?_⟩
            rw [← hbody, ← textBytes_single hd]
            simp [joinParts, partBytes]
          | _ => simp [ReferencePart.isLiteral] at hprevious
      obtain ⟨before, d, rfl⟩ := hends
      refine (nthIndexFromEnd_append (utf8Char_ne_nil c) (fun i hprefix => ?_) _).trans hinit
      rcases Nat.lt_or_ge i (before ++ utf8Char d).length with hlt | hge
      · exact le_of_prefix_drop_utf8Char hprefix hlt
      · rw [List.drop_append, List.drop_eq_nil_of_le hge, List.nil_append] at hprefix
        exact absurd (List.IsInfix.trans (List.IsPrefix.isInfix hprefix) (List.drop_suffix _ _).isInfix) (hfree last (by simp) hlast)

/-- When every literal is one character and only the first variable part may have literals in its value, the
delimiters of a rendered reference are found from the end. -/
theorem countedFromEnd_of_single (hparts : SeparatedParts parts) (hsingle : SingleLiterals parts)
    (hfree : ∀ part ∈ (parts.filter fun part => !part.isLiteral).tail, ∀ value, .literal value ∈ parts →
      ¬ textBytes value <:+: values part) : CountedFromEnd values [] parts := by
  intro before part delimiter rest hsplit hpart
  subst hsplit
  obtain ⟨c, hc⟩ := hsingle delimiter (by simp)
  have hlater : ∀ p ∈ rest, p.isLiteral = false →
      p ∈ ((before ++ part :: .literal delimiter :: rest).filter fun part => !part.isLiteral).tail := by
    intro p hp hvariable
    rw [List.filter_append, List.filter_cons_of_pos (by simp [hpart])]
    have hmem : p ∈ (.literal delimiter :: rest).filter fun part => !part.isLiteral :=
      List.mem_filter.mpr ⟨List.mem_cons_of_mem _ hp, by simp [hvariable]⟩
    cases before.filter fun part => !part.isLiteral with
    | nil => exact hmem
    | cons _ front => exact List.mem_append_right front (List.mem_cons_of_mem part hmem)
  have hcut := nthIndexFromEnd_joinParts values hc (fun value hvalue => hsingle value (by simp [hvalue]))
    (List.isChain_append.mp hparts.separated).2.1.of_cons
    (fun p hp hvariable => textBytes_single hc ▸ hfree p (hlater p hp hvariable) delimiter (by simp)) (values part)
  rw [joinParts_cons, joinParts_cons, partBytes_variable values hpart, partBytes, textBytes_single hc, List.append_nil,
    ← List.append_assoc]
  exact hcut

/-- **The segments of a text are what a parse finds.** -/
theorem parseParts_joinParts
    (hparts : SeparatedParts parts) (hvalues : ∀ part ∈ parts, part.isLiteral = false → values part ≠ [])
    (hcounted : CountedFromEnd values [] parts) (checked : Bool)
    (hchecked : checked = false → parts = [] ∨ ∃ value rest, parts = .literal value :: rest)
    (remaining : List Byte) (hremaining : consumedLiteral checked parts ++ remaining = joinParts values parts)
    (result : ReferenceParseResult) :
    parseParts checked parts remaining result = .ok (assignParts values parts result, []) := by
  induction parts generalizing checked remaining result with
  | nil =>
    obtain rfl : remaining = [] := hremaining
    rfl
  | cons part rest ih =>
    have hvalues' : ∀ p ∈ rest, p.isLiteral = false → values p ≠ [] := fun p hp =>
      hvalues p (List.mem_cons_of_mem part hp)
    cases hpart : part.isLiteral with
    | true =>
      obtain ⟨value, rfl⟩ := ReferencePart.exists_of_isLiteral hpart
      have hrest := ih hparts.tail hvalues' hcounted.tail true (by simp) (joinParts values rest)
        (by rw [consumedLiteral_true, List.nil_append]) result
      rw [parseParts]
      cases checked with
      | true =>
        obtain rfl : remaining = textBytes value ++ joinParts values rest := hremaining
        rw [if_pos rfl, if_pos (List.isPrefixOf_iff_prefix.mpr (List.prefix_append _ _)), List.drop_left, hrest]
        rfl
      | false =>
        obtain rfl : remaining = joinParts values rest := List.append_cancel_left hremaining
        rw [if_neg (by decide), hrest]
        rfl
    | false =>
      have hne := hvalues part List.mem_cons_self hpart
      rw [consumedLiteral_variable checked hpart, List.nil_append] at hremaining
      -- the cut is after the value of the part
      have hconsume : ∃ after, consumeReferenceSegment rest remaining = .ok (values part, after) ∧
          consumedLiteral false rest ++ after = joinParts values rest := by
        rcases hparts.after_variable hpart with rfl | ⟨delimiter, rest', rfl, hdelimiter⟩
        · rw [joinParts_cons, partBytes_variable _ hpart, joinParts_nil, List.append_nil] at hremaining
          refine ⟨[], ?_, rfl⟩
          rw [consumeReferenceSegment, nextReferenceLiteral, if_pos rfl, hremaining, if_neg hne]
        · have hcut := hcounted [] part delimiter rest' rfl hpart
          obtain ⟨k, hk⟩ : ∃ k, (values part).length = k + 1 :=
            ⟨(values part).length - 1, by have := List.length_pos_iff.mpr hne; omega⟩
          have hcount : laterLiteralCount (.literal delimiter :: rest') delimiter =
              rest'.count (.literal delimiter) := rfl
          rw [List.append_nil, ← hremaining, hk] at hcut
          rw [joinParts_cons, joinParts_cons, partBytes_variable _ hpart, partBytes, ← List.append_assoc] at hremaining
          refine ⟨joinParts values rest', ?_, rfl⟩
          simp only [consumeReferenceSegment, nextReferenceLiteral, if_neg hdelimiter, hcount, hcut]
          rw [hremaining, ← hk, List.append_assoc, List.take_left, ← List.length_append, ← List.append_assoc,
            List.drop_left]
      obtain ⟨after, hconsume, hafter⟩ := hconsume
      rw [parseParts_variable hpart, hconsume]
      have hnext : rest = [] ∨ ∃ value rest', rest = ReferencePart.literal value :: rest' := by
        rcases hparts.after_variable hpart with hnil | ⟨value, rest', hrest, -⟩
        · exact .inl hnil
        · exact .inr ⟨value, rest', hrest⟩
      exact ih hparts.tail hvalues' hcounted.tail false (fun _ => hnext) after hafter _

theorem Segments.parseParts {text : List Byte} (h : Segments parts text values) (hparts : SeparatedParts parts) :
    parseParts true parts text .empty = .ok (assignParts values parts .empty, []) :=
  parseParts_joinParts hparts h.nonempty h.counted true (by simp) text
    (by rw [consumedLiteral_true, List.nil_append, h.text_eq]) .empty

/-- The property segments of a text are the properties that a parse finds. -/
theorem Segments.props {text : List Byte}
    {result : ReferenceParseResult} (h : Segments parts text values) (hparts : SeparatedParts parts)
    (hparse : Nodes.parseParts true parts text .empty = .ok (result, leftover)) {name : String}
    (hname : .property name ∈ parts) : result.props.get name = some (values (.property name)) := by
  obtain ⟨rfl, -⟩ := Prod.mk.inj (Except.ok.inj (hparse.symm.trans (h.parseParts hparts)))
  rw [props_assignParts, if_pos hname]

/-! ### What no part took -/

theorem joinParts_suffix (values : ReferencePart → List Byte) {trailing : List ReferencePart}
    (h : trailing <:+ parts) : joinParts values trailing <:+ joinParts values parts := by
  obtain ⟨before, rfl⟩ := h
  exact ⟨joinParts values before, (List.flatMap_append).symm⟩

theorem joinParts_literals (values : ReferencePart → List Byte)
    (h : ∀ part ∈ parts, part.isLiteral = true) : joinParts values parts = joinParts (fun _ => []) parts := by
  refine List.flatMap_congr fun part hpart => ?_
  cases part with
  | literal value => rfl
  | _ => cases h _ hpart

theorem count_partBytes (h : ∀ part ∈ parts, part.isLiteral = true) (delimiter : String) :
    (parts.map (partBytes fun _ => [])).count (textBytes delimiter) = parts.count (.literal delimiter) := by
  induction parts with
  | nil => rfl
  | cons part rest ih =>
    rw [List.map_cons, List.count_cons, List.count_cons, ih fun p hp => h p (List.mem_cons_of_mem part hp)]
    cases part with
    | literal value =>
      have hiff : (textBytes value = textBytes delimiter) ↔ value = delimiter :=
        ⟨fun heq => String.toList_injective (utf8_injective heq), congrArg textBytes⟩
      simp [partBytes, hiff]
    | _ => cases h _ List.mem_cons_self

/-- **The parts took all of a text that ends with the literals after the last variable.** -/
theorem leftover_eq_nil (hparts : SeparatedParts parts) (hcounted : CountedFromEnd values leftover parts)
    (hleft : (∀ part ∈ parts.getLast?, part.isLiteral = false) → parts ≠ [] → leftover = [])
    (hends : trailingLiterals parts <:+ joinParts values parts ++ leftover)
    (honly : (∀ part ∈ parts, part.isLiteral = true) → joinParts values parts ++ leftover = trailingLiterals parts) :
    leftover = [] := by
  by_cases hliterals : ∀ part ∈ parts, part.isLiteral = true
  · have htext := honly hliterals
    rw [trailingLiterals, List.rtakeWhile_eq_self_iff.mpr hliterals, ← joinParts_literals values hliterals] at htext
    simpa using htext
  · have hsplit : parts.rdropWhile ReferencePart.isLiteral ++ parts.rtakeWhile ReferencePart.isLiteral = parts :=
      List.rdropWhile_append_rtakeWhile
    have hne : parts.rdropWhile ReferencePart.isLiteral ≠ [] := fun h =>
      hliterals (List.rdropWhile_eq_nil_iff.mp h)
    have hvariable := List.rdropWhile_last_not ReferencePart.isLiteral parts hne
    rw [trailingLiterals] at hends
    have hall : ∀ part ∈ parts.rtakeWhile ReferencePart.isLiteral, part.isLiteral = true := fun _ =>
      List.mem_rtakeWhile_imp
    generalize parts.rtakeWhile ReferencePart.isLiteral = trailing at *
    rw [← List.dropLast_append_getLast hne, List.append_assoc, List.singleton_append] at hsplit
    generalize (parts.rdropWhile ReferencePart.isLiteral).getLast hne = part at *
    generalize (parts.rdropWhile ReferencePart.isLiteral).dropLast = before at *
    subst hsplit
    cases trailing with
    | nil => exact hleft (by simpa using hvariable) (by simp)
    | cons first rest =>
      obtain ⟨delimiter, rfl⟩ := ReferencePart.exists_of_isLiteral (hall first List.mem_cons_self)
      have hcut := hcounted before part delimiter rest rfl (by simpa using hvariable)
      -- the text after what stands before the variable ends with the literals as well
      have hsuffix : joinParts (fun _ => []) (.literal delimiter :: rest) <:+
          joinParts values (part :: .literal delimiter :: rest) ++ leftover := by
        refine List.suffix_of_suffix_length_le hends ?_ ?_
        · exact ⟨joinParts values before, by simp [joinParts]⟩
        · rw [joinParts_cons values, ← joinParts_literals values hall]
          simp only [List.length_append]
          omega
      obtain ⟨front, hfront⟩ := hsuffix
      have hpieces : joinParts (fun _ => []) (.literal delimiter :: rest) =
          ((ReferencePart.literal delimiter :: rest).map (partBytes fun _ => [])).flatten := rfl
      rw [← hfront, hpieces, ← List.count_cons_self, ← count_partBytes hall] at hcut
      rw [← List.append_nil (front ++ _)] at hcut
      have hle := length_le_of_nthIndexFromEnd hcut
      have hlength := congrArg List.length hfront
      rw [joinParts_cons values part, partBytes_variable values (by simpa using hvariable),
        joinParts_literals values hall] at hlength
      simp only [List.length_append] at hlength
      exact List.length_eq_zero_iff.mp (by omega)

/-! ### Templates -/

/-- A template with parts that can be told apart. -/
structure ReferenceTemplate.WellFormed (template : ReferenceTemplate) : Prop where
  nonempty : template.parts ≠ []
  parts : SeparatedParts template.parts

/-- Values for the variable parts; a property is a JSON string, which holds a text. -/
structure ReferenceValues where
  nodeTypeKey : List Byte
  props : String → String
  scopeRefs : String → List Byte

def ReferenceValues.input (values : ReferenceValues) : ByteRenderInput where
  nodeTypeKey := values.nodeTypeKey
  props name := String.ofList (Json.str (values.props name)).render
  scopeRefs := values.scopeRefs

def ReferenceValues.value (values : ReferenceValues) : ReferencePart → List Byte
  | .nodeType => values.nodeTypeKey
  | .property name => textBytes (values.props name)
  | .scopeRef feature => values.scopeRefs feature
  | .literal _ | .unknown _ => []

/-- The parsed values are the given ones, and there are no others. -/
structure ReferenceParseResult.Exactly (result : ReferenceParseResult) (parts : List ReferencePart)
    (values : ReferenceValues) : Prop where
  scopeRefs : ∀ feature, result.scopeRefs.get feature =
    if .scopeRef feature ∈ parts then some (values.scopeRefs feature) else none
  props : ∀ name, result.props.get name =
    if .property name ∈ parts then some (textBytes (values.props name)) else none
  nodeTypeKey : result.nodeTypeKey = if .nodeType ∈ parts then values.nodeTypeKey else []

theorem referencePropertyString_str {text : String} (h : text ≠ "") :
    referencePropertyString (String.ofList (Json.str text).render) = .ok text := by
  have hrender : String.ofList (Json.str text).render ≠ "" := fun heq => by cases ofList_eq_empty.mp heq
  rw [referencePropertyString, if_neg hrender, String.toList_ofList, Json.parse_render]
  simp only [if_neg h]

theorem render_values {values : ReferenceValues}
    (hvalues : ∀ part ∈ parts, part.isLiteral = false → (∀ kind, part ≠ .unknown kind) → values.value part ≠ [])
    (hknown : ∀ kind, .unknown kind ∉ parts) :
    renderPartsBytes values.input parts = .ok (joinParts values.value parts) := by
  refine renderPartsBytes_eq fun part hpart => ?_
  cases part with
  | literal value => rfl
  | unknown kind => exact absurd hpart (hknown kind)
  | nodeType =>
    have hne : values.nodeTypeKey ≠ [] := hvalues _ hpart rfl nofun
    exact if_neg hne
  | scopeRef feature =>
    have hne : values.scopeRefs feature ≠ [] := hvalues _ hpart rfl nofun
    exact if_neg hne
  | property name =>
    have hne : values.props name ≠ "" := fun h => hvalues _ hpart rfl nofun (textBytes_eq_nil.mpr h)
    simp only [renderPartBytes, ReferenceValues.input, referencePropertyString_str hne]
    rfl

theorem mapError_eq_ok {ε ε' α : Type*} {x : Except ε α} {f : ε → ε'} {a : α} :
    x.mapError f = .ok a ↔ x = .ok a := by
  cases x <;> simp [Except.mapError]

theorem known_of_renderPartsBytes_ok {input : ByteRenderInput} {output : List Byte}
    (h : renderPartsBytes input parts = .ok output) (kind : String) : .unknown kind ∉ parts := by
  intro hmem
  obtain ⟨text, htext⟩ := exists_of_renderPartsBytes_ok h _ hmem
  cases htext

theorem exists_of_parse_ok {template : ReferenceTemplate} {input : List Byte} {result : ReferenceParseResult}
    (h : template.parse input = .ok result) : ∃ leftover, template.parseWithRest input = .ok (result, leftover) := by
  rw [ReferenceTemplate.parse] at h
  cases hparse : template.parseWithRest input with
  | error reason => rw [hparse] at h; cases h
  | ok found => rw [hparse] at h; cases h; exact ⟨found.2, rfl⟩

/-- The texts that a template renders back: they end with the literals after the last variable, the segments of the
properties are texts, and the template has no part of an unknown kind. -/
structure ReferenceTemplate.RoundTrips (template : ReferenceTemplate) (input : List Byte) : Prop where
  /-- The input ends as the template does; when the last part is a variable this says nothing. -/
  ends : trailingLiterals template.parts <:+ input
  /-- A template of literals has one text. -/
  only : (∀ part ∈ template.parts, part.isLiteral = true) → input = trailingLiterals template.parts
  /-- A JSON string holds no other bytes than those of a text. -/
  texts : ∀ values, Segments template.parts input values → ∀ name, .property name ∈ template.parts →
    ValidUtf8 (values (.property name))
  /-- The renderer refuses a part of another kind. -/
  known : ∀ kind, .unknown kind ∉ template.parts

/-- **References and their templates.**  Rendering what a parse found gives the text back exactly when it ends as the
template does, its property segments are texts and the kinds of the parts are known; and a rendered reference is
parsed back, when every literal is one character and only the first variable part may contain one. -/
theorem reference_parse_render (template : ReferenceTemplate) (hformed : template.WellFormed) :
    (∀ (input : List Byte) (result : ReferenceParseResult), template.parse input = .ok result →
      (template.renderBytes result.renderInput = .ok input ↔ template.RoundTrips input)) ∧
    (SingleLiterals template.parts → ∀ values : ReferenceValues,
      (∀ part ∈ template.parts, part.isLiteral = false → (∀ kind, part ≠ .unknown kind) → values.value part ≠ []) →
      (∀ part ∈ (template.parts.filter fun part => !part.isLiteral).tail, ∀ literal,
        .literal literal ∈ template.parts → ¬ textBytes literal <:+: values.value part) →
      ((∀ kind, .unknown kind ∉ template.parts) → ∃ output, template.renderBytes values.input = .ok output) ∧
      ∀ output, template.renderBytes values.input = .ok output →
        ∃ result, template.parse output = .ok result ∧ result.Exactly template.parts values) := by
  constructor
  · intro input result h
    obtain ⟨leftover, h⟩ := exists_of_parse_ok h
    obtain ⟨values, hvalues, htext, hcounted, hfinal, hleft⟩ := parseParts_ok hformed.parts h
    rw [consumedLiteral_true, List.nil_append] at htext
    have hleft' : (∀ part ∈ template.parts.getLast?, part.isLiteral = false) → template.parts ≠ [] → leftover = [] :=
      fun hlast hne => hleft hlast fun h => absurd h hne
    rw [ReferenceTemplate.renderBytes, mapError_eq_ok]
    constructor
    · intro hrender
      have hknown := known_of_renderPartsBytes_ok hrender
      rw [hfinal, render_assignParts hvalues hknown, htext, Except.ok.injEq] at hrender
      obtain ⟨rfl, hvalid⟩ := valid_of_joinParts_readBack hformed.parts hleft' hrender
      rw [List.append_nil] at htext
      refine ⟨?_, fun hliterals => ?_, fun values' hvalues' name hname => ?_, hknown⟩
      · rw [htext, trailingLiterals, ← joinParts_literals values fun _ => List.mem_rtakeWhile_imp]
        exact joinParts_suffix values (List.rtakeWhile_suffix _ _)
      · rw [htext, trailingLiterals, List.rtakeWhile_eq_self_iff.mpr hliterals, joinParts_literals values hliterals]
      · have hprops := hvalues'.props hformed.parts h hname
        rw [hfinal, props_assignParts, if_pos hname] at hprops
        exact Option.some.inj hprops ▸ hvalid name hname
    · intro hround
      obtain rfl : leftover = [] := leftover_eq_nil hformed.parts hcounted hleft' (htext ▸ hround.ends)
        fun hliterals => htext ▸ hround.only hliterals
      rw [List.append_nil] at htext
      rw [hfinal, render_assignParts hvalues hround.known, htext]
      refine congrArg Except.ok (joinParts_congr fun part hpart => ?_)
      cases part with
      | property name => exact hround.texts values ⟨htext, hvalues, hcounted⟩ name hpart
      | _ => rfl
  · intro hsingle values hvalues hfree
    refine ⟨fun hknown => ⟨joinParts values.value template.parts, ?_⟩, fun output hrender => ?_⟩
    · rw [ReferenceTemplate.renderBytes, mapError_eq_ok]
      exact render_values hvalues hknown
    · rw [ReferenceTemplate.renderBytes, mapError_eq_ok] at hrender
      have hknown := known_of_renderPartsBytes_ok hrender
      rw [render_values hvalues hknown, Except.ok.injEq] at hrender
      have hsegments : Segments template.parts output values.value :=
        ⟨hrender.symm, fun part hpart hvariable => hvalues part hpart hvariable fun kind hkind =>
          hknown kind (hkind ▸ hpart), countedFromEnd_of_single hformed.parts hsingle hfree⟩
      have hparse := hsegments.parseParts hformed.parts
      refine ⟨_, congrArg (Except.map Prod.fst) hparse, ?_, ?_, ?_⟩
      · exact fun feature => scopeRefs_assignParts _ feature
      · exact fun name => props_assignParts _ name
      · exact nodeTypeKey_assignParts _

/-! ### Two templates -/

/-- A reference with one delimiter twice: the scope, the team and the number. -/
def teamReference : ReferenceTemplate :=
  ⟨"key", [.scopeRef "is_scope", .literal "-", .property "team", .literal "-", .property "sequence"]⟩

theorem teamReference_wellFormed : teamReference.WellFormed where
  nonempty := by decide
  parts :=
    { literals := by simp [teamReference]
      separated := by simp [teamReference, ReferencePart.isLiteral]
      distinct := by decide }

theorem parseWithRest_teamReference : teamReference.parseWithRest (textBytes "FAN-QA-Zürich-13") =
    .ok (⟨Table.empty.set "is_scope" (textBytes "FAN-QA"),
      (Table.empty.set "team" (textBytes "Zürich")).set "sequence" (textBytes "13"), []⟩, []) := by
  rfl

theorem reference_parse_render_team :
    (∃ result, teamReference.parse (textBytes "FAN-QA-Zürich-13") = .ok result ∧
      teamReference.renderBytes result.renderInput = .ok (textBytes "FAN-QA-Zürich-13")) ∧
    ∃ output result, teamReference.renderBytes (ReferenceValues.input
        ⟨[], fun name => if name = "team" then "Zürich" else "13", fun _ => textBytes "FAN-QA"⟩) = .ok output ∧
      teamReference.parse output = .ok result ∧ result.Exactly teamReference.parts
        ⟨[], fun name => if name = "team" then "Zürich" else "13", fun _ => textBytes "FAN-QA"⟩ := by
  obtain ⟨haccepts, hreads⟩ := reference_parse_render teamReference teamReference_wellFormed
  have hknown : ∀ kind, .unknown kind ∉ teamReference.parts := by simp [teamReference]
  constructor
  · have hround : teamReference.RoundTrips (textBytes "FAN-QA-Zürich-13") := by
      refine ⟨List.nil_suffix, fun hliterals => ?_, fun values hvalues name hname => ?_, hknown⟩
      · cases hliterals (.scopeRef "is_scope") (by simp [teamReference])
      · have hprops := hvalues.props teamReference_wellFormed.parts parseWithRest_teamReference hname
        obtain rfl | rfl : name = "team" ∨ name = "sequence" := by simpa [teamReference] using hname
        · exact Option.some.inj hprops ▸ validUtf8_utf8 _
        · exact Option.some.inj hprops ▸ validUtf8_utf8 _
    have hparse := congrArg (Except.map Prod.fst) parseWithRest_teamReference
    exact ⟨_, hparse, (haccepts _ _ hparse).mpr hround⟩
  · obtain ⟨hrenders, hparses⟩ := hreads
      (fun value hvalue => ⟨'-', by simp [teamReference] at hvalue; rw [hvalue]; rfl⟩)
      ⟨[], fun name => if name = "team" then "Zürich" else "13", fun _ => textBytes "FAN-QA"⟩
      (by simp [teamReference, ReferencePart.isLiteral, ReferenceValues.value, textBytes_eq_nil])
      (by
        intro part hpart literal hliteral
        obtain rfl : literal = "-" := by simpa [teamReference] using hliteral
        obtain rfl | rfl : part = .property "team" ∨ part = .property "sequence" := by
          simpa [teamReference, ReferencePart.isLiteral] using hpart
        all_goals decide)
    obtain ⟨output, houtput⟩ := hrenders hknown
    obtain ⟨result, hresult, hexactly⟩ := hparses output houtput
    exact ⟨output, result, houtput, hresult, hexactly⟩

/-- **A text with something after the last literal is accepted.** -/
theorem reference_parse_leaves_rest :
    ReferenceTemplate.WellFormed ⟨"key", [.scopeRef "is_scope", .literal "-"]⟩ ∧
    ∃ result, ReferenceTemplate.parse ⟨"key", [.scopeRef "is_scope", .literal "-"]⟩ (textBytes "FAN-13") = .ok result ∧
      ReferenceTemplate.renderBytes ⟨"key", [.scopeRef "is_scope", .literal "-"]⟩ result.renderInput =
        .ok (textBytes "FAN-") ∧ textBytes "FAN-" ≠ textBytes "FAN-13" := by
  refine ⟨⟨by decide, by simp, by simp [ReferencePart.isLiteral], by decide⟩,
    ⟨Table.empty.set "is_scope" (textBytes "FAN"), .empty, []⟩, rfl, rfl, by decide⟩

end Tack.Nodes
