import NeoListing.Contract.Input
import NeoListing.Proofs.Contract.DeployedState
import NeoListing.Proofs.FirstFault
import NeoListing.Proofs.Node.CacheHistory

/-! # Answers that are neither taken nor refused

Most faults in the answer of a node are refused as such. A few are not: an operation is tried on a
value that does not have it, or an infinite number is to become an integer. Such a fault is met
unless another stands before it, in the order in which an answer is read. Nor is it refused when the
client that asks the node fails in a way that it does not document.
-/

namespace NeoListing
open Outcome

namespace Json

def isObject : Json → Bool
  | .object _ => true
  | _ => false

def isText : Json → Bool
  | .text _ => true
  | _ => false

def isInfinite : Json → Bool
  | .float (.infinite _) => true
  | _ => false

def ShapeError.isStray : ShapeError → Bool
  | .noOperation _ _ => true
  | .infinite => true
  | _ => false

variable {v m : Json} {name : String}

abbrev Strays {α : Type} (x : Except ShapeError α) : Prop :=
  FailsWith (fun e => e.isStray = true) x

theorem member_eq_ok_iff : v.member name = .ok m ↔ v.member? name = some m := by
  constructor
  · intro h
    cases v with
    | object members =>
      unfold member at h
      simp only at h
      unfold member?
      split at h
      next hf =>
        cases h
        exact hf
      next => cases h
    | _ => cases h
  · exact member_of_member?

theorem strays_member : Strays (v.member name) ↔ False := by
  rw [iff_false]
  rintro ⟨e, h, he⟩
  unfold member at h
  split at h
  · split at h
    · cases h
    · cases h
      cases he
  all_goals
    cases h
    cases he

theorem memberOr_eq_ok_iff {default : Json} :
    v.memberOr name default = .ok m ↔
      v.isObject = true ∧ (v.member? name).getD default = m := by
  cases v <;> simp [memberOr, member?, isObject]

theorem strays_memberOr {default : Json} :
    Strays (v.memberOr name default) ↔ v.isObject = false := by
  cases v <;> simp [memberOr, isObject, ShapeError.isStray]

theorem strays_items : Strays v.items ↔ False := by
  cases v <;> simp [items, ShapeError.isStray]

theorem strays_toInt : Strays v.toInt ↔ v.isInfinite = true := by
  cases v with
  | float x => cases x <;> simp [toInt, isInfinite, ShapeError.isStray]
  | text s =>
    simp only [toInt, isInfinite, Bool.false_eq_true, iff_false]
    cases Text.integer s <;> simp [ShapeError.isStray]
  | _ => simp [toInt, isInfinite, ShapeError.isStray]

end Json

/-! ## Manifests -/

namespace Manifest
open Json

theorem rows_eq_mapM (items : List Json) : rows items = items.mapM row :=
  eq_mapM rows row rfl (fun _ _ => rfl) items

def HasInfiniteOffset (v : Json) : Prop :=
  ∃ offset, v.member? "offset" = some offset ∧ offset.isInfinite = true

theorem strays_row (v : Json) : Strays (row v) ↔ HasInfiniteOffset v := by
  simp only [row, failsWith_bind, strays_member, strays_toInt, member_eq_ok_iff, false_or, pure,
    Except.pure, failsWith_ok, and_false, exists_false, or_false, HasInfiniteOffset]

def interface (m : Json) : Json := (m.member? "abi").getD (.object [])

/-- A manifest that cannot be taken apart: it, or its part on the interface, is no object, or some
method has an infinite offset while those before it are fine. -/
inductive Stops (m : Json) : Prop where
  | manifest (h : m.isObject = false)
  | interface (h : m.isObject = true) (hi : (interface m).isObject = false)
  | offset {methods : List Json} (h : m.isObject = true) (hi : (interface m).isObject = true)
    (hm : (((interface m).member? "methods").getD (.array [])).items = .ok methods)
    (hf : First (fun v => ∃ r, row v = .ok r) HasInfiniteOffset methods)

theorem strays_starts (m : Json) : Strays (starts m) ↔ Stops m := by
  simp only [starts, failsWith_bind, strays_memberOr, strays_items, memberOr_eq_ok_iff, false_or,
    rows_eq_mapM, failsWith_mapM, strays_row, pure, Except.pure, failsWith_ok, and_false,
    exists_false, or_false]
  constructor
  · rintro (h | ⟨abi, ⟨h, rfl⟩, hi | ⟨methods, ⟨hi, rfl⟩, items, hm, hf⟩⟩)
    · exact .manifest h
    · exact .interface h hi
    · exact .offset h hi hm hf
  · rintro (h | ⟨h, hi⟩ | ⟨h, hi, hm, hf⟩)
    · exact .inl h
    · exact .inr ⟨_, ⟨h, rfl⟩, .inl hi⟩
    · exact .inr ⟨_, ⟨h, rfl⟩, .inr ⟨_, ⟨hi, rfl⟩, _, hm, hf⟩⟩

end Manifest

/-! ## States -/

namespace Contract
open Json

abbrev Strays {α : Type} (x : Except StateError α) : Prop :=
  FailsWith (fun e => e.isMalformed = false) x

theorem strays_shaped {α : Type} {x : Except ShapeError α} :
    Strays (shaped x) ↔ Json.Strays x := by
  cases x with
  | ok a => simp [shaped]
  | error e => cases e <;> simp [shaped, StateError.isMalformed, ShapeError.isStray]

theorem shaped_eq_ok_iff {α : Type} {x : Except ShapeError α} {a : α} :
    shaped x = .ok a ↔ x = .ok a := by
  cases x <;> simp [shaped]

theorem strays_readScript (v : Json) : Strays (readScript v) ↔ False := by
  cases v with
  | text s =>
    simp only [readScript]
    cases Base64.decode s <;> simp [StateError.isMalformed]
  | _ => simp [readScript, StateError.isMalformed]

theorem strays_readHash (v : Json) : Strays (readHash v) ↔ v.isText = false := by
  cases v with
  | text s =>
    simp only [readHash, isText]
    cases ScriptHash.parse s <;> simp [StateError.isMalformed]
  | _ => simp [readHash, isText, StateError.isMalformed]

theorem strays_readFlags (v : Json) : Strays (readFlags v) ↔ v.isText = false := by
  cases v with
  | text s =>
    simp only [readFlags, isText]
    cases CallFlags.parse s <;> simp [StateError.isMalformed]
  | _ => simp [readFlags, isText, StateError.isMalformed]

/-- A token that cannot be taken apart: its hash or its flags are no text, or the number of its
parameters is infinite, and what is read before that is fine. -/
inductive TokenStops (v : Json) : Prop where
  | hash {hash : Json} (h : v.member? "hash" = some hash) (ht : hash.isText = false)
  | parameters {hash count method : Json} (h : v.member? "hash" = some hash)
    (hh : ∃ r, readHash hash = .ok r) (hm : v.member? "method" = some method)
    (hc : v.member? "paramcount" = some count) (hi : count.isInfinite = true)
  | flags {hash count method returns flags : Json} (h : v.member? "hash" = some hash)
    (hh : ∃ r, readHash hash = .ok r) (hm : v.member? "method" = some method)
    (hc : v.member? "paramcount" = some count) (hn : ∃ n, count.toInt = .ok n)
    (hr : v.member? "hasreturnvalue" = some returns) (hf : v.member? "callflags" = some flags)
    (ht : flags.isText = false)

theorem strays_readToken (v : Json) : Strays (readToken v) ↔ TokenStops v := by
  simp only [readToken, failsWith_bind, strays_shaped, strays_member, strays_toInt,
    strays_readHash, strays_readFlags, shaped_eq_ok_iff, member_eq_ok_iff, false_or, pure,
    Except.pure, failsWith_ok, and_false, exists_false, or_false]
  constructor
  · rintro ⟨hash, h, ht | ⟨r, hh, method, hm, count, hc, hi | ⟨n, hn, returns, hr, flags, hf, ht⟩⟩⟩
    · exact .hash h ht
    · exact .parameters h ⟨r, hh⟩ hm hc hi
    · exact .flags h ⟨r, hh⟩ hm hc ⟨n, hn⟩ hr hf ht
  · rintro (⟨h, ht⟩ | ⟨h, ⟨r, hh⟩, hm, hc, hi⟩ | ⟨h, ⟨r, hh⟩, hm, hc, ⟨n, hn⟩, hr, hf, ht⟩)
    · exact ⟨_, h, .inl ht⟩
    · exact ⟨_, h, .inr ⟨r, hh, _, hm, _, hc, .inl hi⟩⟩
    · exact ⟨_, h, .inr ⟨r, hh, _, hm, _, hc, .inr ⟨n, hn, _, hr, _, hf, ht⟩⟩⟩

theorem readTokens_eq_mapM (items : List Json) : readTokens items = items.mapM readToken :=
  eq_mapM readTokens readToken rfl (fun _ _ => rfl) items

def HasTokens (state : Json) (items : List Json) : Prop :=
  ∃ nef script, state.member? "nef" = some nef ∧ nef.member? "script" = some script ∧
    (∃ bytes, readScript script = .ok bytes) ∧
    ((nef.member? "tokens").getD (.array [])).items = .ok items

inductive StateStops (state : Json) : Prop where
  | token {items : List Json} (h : HasTokens state items)
    (hf : First (fun v => ∃ t, readToken v = .ok t) TokenStops items)
  | manifest {items : List Json} (h : HasTokens state items)
    (ht : ∀ v ∈ items, ∃ t, readToken v = .ok t) (hm : Manifest.Stops (manifestOf state))

theorem strays_ofState {state nef : Json} (h : state.member? "nef" = some nef) :
    Strays (ofState state) ↔ StateStops state := by
  have hobject : ∀ {script}, nef.member? "script" = some script → nef.isObject = true := by
    intro script hs
    cases nef with
    | object members => rfl
    | _ => cases hs
  simp only [ofState, member_of_member? h, failsWith_bind, strays_shaped, strays_member,
    strays_readScript, strays_memberOr, strays_items, shaped_eq_ok_iff, member_eq_ok_iff,
    memberOr_eq_ok_iff, readTokens_eq_mapM, failsWith_mapM, strays_readToken,
    Manifest.strays_starts, false_or, pure, Except.pure, failsWith_ok, and_false, exists_false,
    or_false]
  constructor
  · rintro ⟨script, hs, bytes, hb, ho | ⟨tokens, ⟨-, rfl⟩, items, hi, hf | ⟨read, ht, hm⟩⟩⟩
    · rw [hobject hs] at ho
      cases ho
    · exact .token ⟨nef, script, h, hs, ⟨bytes, hb⟩, hi⟩ hf
    · exact .manifest ⟨nef, script, h, hs, ⟨bytes, hb⟩, hi⟩ (exists_mapM_eq_ok_iff.mp ⟨read, ht⟩) hm
  · rintro (⟨⟨nef', script, h', hs, ⟨bytes, hb⟩, hi⟩, hf⟩ |
      ⟨⟨nef', script, h', hs, ⟨bytes, hb⟩, hi⟩, ht, hm⟩)
    · cases h.symm.trans h'
      exact ⟨script, hs, bytes, hb, .inr ⟨_, ⟨hobject hs, rfl⟩, _, hi, .inl hf⟩⟩
    · cases h.symm.trans h'
      obtain ⟨read, ht⟩ := exists_mapM_eq_ok_iff.mpr ht
      exact ⟨script, hs, bytes, hb, .inr ⟨_, ⟨hobject hs, rfl⟩, _, hi, .inr ⟨read, ht, hm⟩⟩⟩

end Contract

/-! ## Answers -/

namespace Node
open Json

def Error.isRefusal : Error → Bool
  | .unshaped _ => false
  | .broken _ => false
  | _ => true

abbrev Strays {α : Type} (x : Except Error α) : Prop := FailsWith (fun e => e.isRefusal = false) x

section Object

variable {members : List (Text × Json)}

theorem result_of_error {e : Json} (h : find? members "error" = some e) :
    result (.object members) = .error (reportedError e) := by
  simp only [result, mentionsError, member, h, Option.isSome_some]

theorem result_of_null (h : find? members "error" = none)
    (hr : (find? members "result").getD .null = .null) :
    result (.object members) = .error .nullResult := by
  simp only [result, mentionsError, memberOr, h, hr, Option.isSome_none]

theorem result_of_state {state : Json} (h : find? members "error" = none)
    (hr : find? members "result" = some state) (hn : state ≠ .null) :
    result (.object members) = .ok state := by
  simp only [result, mentionsError, memberOr, h, hr, Option.isSome_none, Option.getD_some]

end Object

theorem strays_reportedError (e : Json) :
    (reportedError e).isRefusal = false ↔ e.isObject = false := by
  cases e <;> simp [reportedError, Error.isRefusal, isObject]

theorem strays_result (answer : Json) :
    Strays (result answer) ↔
      answer.isObject = false ∨ ∃ e, answer.member? "error" = some e ∧ e.isObject = false := by
  cases answer with
  | object members =>
    have ho : (Json.object members).isObject = true := rfl
    simp only [ho, member?, Bool.true_eq_false, false_or]
    cases he : find? members "error" with
    | some e => simp [result_of_error he, strays_reportedError]
    | none =>
      by_cases hr : (find? members "result").getD .null = .null
      · simp [result_of_null he hr, Error.isRefusal]
      · cases hs : find? members "result" with
        | none => exact absurd (by rw [hs]; rfl) hr
        | some state =>
          rw [hs] at hr
          simp [result_of_state he hs hr]
  | array items =>
    simp only [result, mentionsError]
    cases items.any (isText "error") <;> simp [member, memberOr, isObject, Error.isRefusal]
  | text s =>
    simp only [result, mentionsError]
    cases occursIn "error" s <;> simp [member, memberOr, isObject, Error.isRefusal]
  | _ => simp [result, mentionsError, isObject, Error.isRefusal]

theorem result_eq_ok_iff {answer state nef : Json} (hn : state.member? "nef" = some nef) :
    result answer = .ok state ↔
      answer.member? "error" = none ∧ answer.member? "result" = some state := by
  have hnull : state ≠ .null := by
    rintro rfl
    cases hn
  cases answer with
  | object members =>
    simp only [member?]
    cases he : find? members "error" with
    | some e => simp [result_of_error he]
    | none =>
      by_cases hr : (find? members "result").getD .null = .null
      · rw [result_of_null he hr]
        refine iff_of_false (by simp) ?_
        rintro ⟨-, hs⟩
        rw [hs] at hr
        exact hnull hr
      · cases hs : find? members "result" with
        | none => exact absurd (by rw [hs]; rfl) hr
        | some v =>
          rw [hs] at hr
          simp [result_of_state he hs hr]
  | array items =>
    simp only [result, mentionsError]
    cases items.any (isText "error") <;> simp [member, memberOr, member?]
  | text s =>
    simp only [result, mentionsError]
    cases occursIn "error" s <;> simp [member, memberOr, member?]
  | _ => simp [result, mentionsError, member?]

theorem stateIn_eq_ok_iff {answer state : Json} :
    stateIn answer = .ok state ↔
      answer.member? "error" = none ∧ answer.member? "result" = some state ∧
        ∃ nef, state.member? "nef" = some nef := by
  simp only [stateIn, bind_eq_ok_iff]
  constructor
  · rintro ⟨v, hr, h⟩
    cases hn : v.member? "nef" with
    | none =>
      simp only [hn] at h
      cases h
    | some nef =>
      simp only [hn] at h
      cases h
      obtain ⟨he, hs⟩ := (result_eq_ok_iff hn).mp hr
      exact ⟨he, hs, nef, hn⟩
  · rintro ⟨he, hs, nef, hn⟩
    refine ⟨state, (result_eq_ok_iff hn).mpr ⟨he, hs⟩, ?_⟩
    simp only [hn]
    rfl

theorem strays_stateIn (answer : Json) :
    Strays (stateIn answer) ↔
      answer.isObject = false ∨ ∃ e, answer.member? "error" = some e ∧ e.isObject = false := by
  rw [← strays_result]
  refine failsWith_bind.trans (or_iff_left ?_)
  rintro ⟨v, -, h⟩
  split at h
  · exact (failsWith_ok _).mp h
  · cases (failsWith_error _).mp h

/-- An answer that cannot be taken apart: it is no object, what it reports as an error is none, or
the state in it cannot be taken apart. -/
inductive AnswerStops (answer : Json) : Prop where
  | answer (h : answer.isObject = false)
  | error {e : Json} (h : answer.member? "error" = some e) (ho : e.isObject = false)
  | state {state nef : Json} (h : answer.member? "error" = none)
    (hr : answer.member? "result" = some state) (hn : state.member? "nef" = some nef)
    (hs : Contract.StateStops state)

theorem answerStops_iff {answer : Json} :
    AnswerStops answer ↔
      Strays (stateIn answer) ∨
        ∃ state, stateIn answer = .ok state ∧ Contract.Strays (Contract.ofState state) := by
  rw [strays_stateIn]
  simp only [stateIn_eq_ok_iff]
  constructor
  · rintro (h | ⟨h, ho⟩ | ⟨h, hr, hn, hs⟩)
    · exact .inl (.inl h)
    · exact .inl (.inr ⟨_, h, ho⟩)
    · exact .inr ⟨_, ⟨h, hr, _, hn⟩, (Contract.strays_ofState hn).mpr hs⟩
  · rintro ((h | ⟨e, h, ho⟩) | ⟨state, ⟨h, hr, nef, hn⟩, hs⟩)
    · exact .answer h
    · exact .error h ho
    · exact .state h hr hn ((Contract.strays_ofState hn).mp hs)

/-- A response that is neither taken nor refused: the client came to grief, or the answer cannot be
taken apart. -/
inductive Response.Stops : Response → Prop where
  | client (kind : String) : Stops (.broken kind)
  | answer {answer : Answer} (h : AnswerStops answer.value) : Stops (.answered answer)

theorem Response.stops_iff {response : Response} :
    response.Stops ↔
      Strays (stateOf response) ∨
        ∃ state, stateOf response = .ok state ∧ Contract.Strays (Contract.ofState state) := by
  cases response with
  | refused reason =>
    refine iff_of_false (fun h => by cases h) ?_
    simp [stateOf, Error.isRefusal]
  | undecodable reason =>
    refine iff_of_false (fun h => by cases h) ?_
    simp [stateOf, Error.isRefusal]
  | broken kind =>
    refine iff_of_true (.client kind) (.inl ?_)
    simp [stateOf, Error.isRefusal]
  | answered answer =>
    rw [stateOf, ← answerStops_iff]
    constructor
    · rintro ⟨⟩
      assumption
    · exact .answer

/-- A client fails in no way but those that it has errors for. -/
def Exchange.FailsAsDocumented (exchange : Exchange) : Prop :=
  ∀ post kind, exchange post ≠ .broken kind

theorem Exchange.FailsAsDocumented.stops_iff {exchange : Exchange}
    (h : exchange.FailsAsDocumented) (post : Post) :
    (exchange post).Stops ↔
      ∃ answer, exchange post = .answered answer ∧ AnswerStops answer.value := by
  constructor
  · intro hs
    cases hr : exchange post with
    | broken kind => exact absurd hr (h post kind)
    | answered answer =>
      rw [hr] at hs
      cases hs with
      | answer ha => exact ⟨answer, rfl, ha⟩
    | refused reason =>
      rw [hr] at hs
      cases hs
    | undecodable reason =>
      rw [hr] at hs
      cases hs
  · rintro ⟨answer, hr, ha⟩
    rw [hr]
    exact .answer ha

end Node

/-! ## Loading -/

namespace Contract
open Node

def InputError.isNodeError : InputError → Bool
  | .node e => e.isRefusal
  | .state e => e.isMalformed
  | _ => false

def FromNode (result : Except InputError Contract) : Prop :=
  (∃ contract, result = .ok contract) ∨ ∃ e, result = .error e ∧ e.isNodeError = true

theorem fromNode_iff {result : Except InputError Contract} :
    FromNode result ↔ ¬FailsWith (fun e => e.isNodeError = false) result := by
  cases result <;> simp [FromNode]

theorem strays_loadDeployed (session : Session) (source url : Text) :
    FailsWith (fun e => e.isNodeError = false) (loadDeployed session source url).result ↔
      Node.Strays (session.contractState ⟨source, url⟩).1 ∨
        ∃ state, (session.contractState ⟨source, url⟩).1 = .ok state ∧
          Strays (ofState state) := by
  cases h : (session.contractState ⟨source, url⟩).1 with
  | error e => simp [loadDeployed, h, InputError.isNodeError]
  | ok state => cases ho : ofState state <;> simp [loadDeployed, h, ho, InputError.isNodeError]

/-- What a session has for a contract comes from a response to the same question. -/
theorem contractState_origin (uses : List Use) (key : Key) (exchange : Exchange) :
    ∃ origin, (origin = exchange ∨ .get key origin ∈ uses) ∧
      ((((Session.new []).after uses).offer exchange).contractState key).1 =
        stateOf (origin (Post.forState key)) := by
  cases hk : ((Session.new []).after uses).cache.get? key with
  | some state =>
    obtain ⟨origin, hmem, hs⟩ := Session.origin_of_kept hk
    refine ⟨origin, .inr hmem, ?_⟩
    simp [Session.contractState, Session.offer, hk, hs]
  | none =>
    refine ⟨exchange, .inl rfl, ?_⟩
    cases hs : stateOf (exchange (Post.forState key)) <;>
      simp [Session.contractState, Session.offer, Session.next, hk, hs]

/-- After any use of a session and with any client, loading a deployed contract gives the contract
or an error of the node, unless the response that decides is neither taken nor refused. That is
what comes of the next request, or of an earlier one for the same contract whose state is still
kept. With a client that fails only as it documents, it takes an answer that cannot be taken
apart. -/
theorem load_from_node_iff (uses : List Use) (files : FileTree) (source url : Text)
    (exchange : Exchange) (session : Session) (hurl : url ≠ [])
    (hsession : session = ((Session.new []).after uses).offer exchange) :
    ∃ origin : Exchange, (origin = exchange ∨ .get ⟨source, url⟩ origin ∈ uses) ∧
      (session.contractState ⟨source, url⟩).1 = stateOf (origin (Post.forState ⟨source, url⟩)) ∧
      (FromNode (load files session source (some url)).result ↔
        ¬(origin (Post.forState ⟨source, url⟩)).Stops) ∧
      (origin.FailsAsDocumented →
        (FromNode (load files session source (some url)).result ↔
          ∀ answer, origin (Post.forState ⟨source, url⟩) = .answered answer →
            ¬AnswerStops answer.value)) := by
  obtain ⟨origin, hmem, hstate⟩ := contractState_origin uses ⟨source, url⟩ exchange
  rw [← hsession] at hstate
  have hiff : FromNode (load files session source (some url)).result ↔
      ¬(origin (Post.forState ⟨source, url⟩)).Stops := by
    rw [fromNode_iff, load, if_neg hurl, Response.stops_iff, ← hstate, strays_loadDeployed]
  refine ⟨origin, hmem, hstate, hiff, fun hclient => ?_⟩
  rw [hiff, hclient.stops_iff]
  simp only [not_exists, not_and]

/-- A request that fails is refused. -/
theorem load_from_node_iff_refused :
    let session := (Session.new []).offer fun _ => .refused "404 Client Error"
    ∃ e, (load [] session "1" (some "http://node")).result = .error e ∧ e.isNodeError = true := by
  intro session
  obtain ⟨origin, horigin | huse, -, hiff, -⟩ :=
    load_from_node_iff [] [] "1" "http://node" (fun _ => .refused "404 Client Error") session
      (by decide) rfl
  · have hfine : ¬(origin (Post.forState ⟨"1", "http://node"⟩)).Stops := by
      rw [horigin]
      rintro ⟨⟩
    rcases hiff.mpr hfine with ⟨contract, h⟩ | h
    · cases h
    · exact h
  · exact absurd huse List.not_mem_nil

/-- A manifest that is no object is neither taken nor refused. -/
theorem load_from_node_listed_manifest :
    let state : Json :=
      .object [("nef", .object [("script", .text "")]), ("manifest", .array [.int 1])]
    let session := (Session.new []).offer fun _ =>
      .answered ⟨.object [("result", state)], by decide⟩
    let fault := InputError.state (.shape (.noOperation "list" "get"))
    (load [] session "1" (some "http://node")).result = .error fault ∧
      fault.isNodeError = false := by
  intro state session fault
  exact ⟨by cbv, rfl⟩

end Contract

end NeoListing
