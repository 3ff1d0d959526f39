import Mathlib
import NeoListing.Node.Session
import NeoListing.Proofs.TableLookup

/-! # What a session has at hand

A session is used step by step: a contract is asked for, or all that is kept is dropped. Whether
a request is answered without the node follows from the events before it. The contracts that were
asked for with success since the last clearing form a ledger, the latest first, and the cache is
the front part of that ledger.
-/

namespace NeoListing.Node

/-- One use of a session. A contract is asked for together with what would come of a request to its
node. -/
inductive Use where
  | get (key : Key) (exchange : Exchange)
  | clear

inductive Event where
  | got (key : Key) (posts : List Post) (result : Except Error Json)
  | cleared

namespace Session

def offer (s : Session) (exchange : Exchange) : Session := ⟨s.cache, [exchange], []⟩

def use (s : Session) : Use → Event × Session
  | .get key exchange =>
    let served := (s.offer exchange).contractState key
    (.got key served.2.posts served.1, served.2)
  | .clear => (.cleared, s.clear)

def after (s : Session) (uses : List Use) : Session := uses.foldl (fun s u => (s.use u).2) s

def answers (s : Session) : List Use → List Event
  | [] => []
  | u :: rest => (s.use u).1 :: answers (s.use u).2 rest

section Uses

variable {s t : Session} {key : Key} {exchange : Exchange}

theorem use_get_of_kept {state : Json} (h : s.cache.get? key = some state) :
    s.use (.get key exchange) =
      (.got key [] (.ok state), ⟨remember s.cache key state, [exchange], []⟩) := by
  simp only [use, offer, contractState, h]

theorem use_get_of_fetched {state : Json} (h : s.cache.get? key = none)
    (hs : stateOf (exchange (Post.forState key)) = .ok state) :
    s.use (.get key exchange) = (.got key [Post.forState key] (.ok state),
      ⟨remember s.cache key state, [], [Post.forState key]⟩) := by
  simp only [use, offer, contractState, h, next, hs]
  rfl

theorem use_get_of_refused {e : Error} (h : s.cache.get? key = none)
    (hs : stateOf (exchange (Post.forState key)) = .error e) :
    s.use (.get key exchange) =
      (.got key [Post.forState key] (.error e), ⟨s.cache, [], [Post.forState key]⟩) := by
  simp only [use, offer, contractState, h, next, hs]
  rfl

theorem event_of_absent (h : s.cache.get? key = none) :
    (s.use (.get key exchange)).1 =
      .got key [Post.forState key] (stateOf (exchange (Post.forState key))) := by
  cases hs : stateOf (exchange (Post.forState key)) with
  | ok state => rw [use_get_of_fetched h hs]
  | error e => rw [use_get_of_refused h hs]

theorem cache_of_failed {posts : List Post} {e : Error}
    (h : (s.use (.get key exchange)).1 = .got key posts (.error e)) :
    (s.use (.get key exchange)).2.cache = s.cache := by
  cases hk : s.cache.get? key with
  | some state =>
    rw [use_get_of_kept hk] at h
    cases h
  | none =>
    cases hs : stateOf (exchange (Post.forState key)) with
    | ok state =>
      rw [use_get_of_fetched hk hs] at h
      cases h
    | error e => rw [use_get_of_refused hk hs]

theorem use_congr (h : s.cache = t.cache) (u : Use) :
    (s.use u).1 = (t.use u).1 ∧ (s.use u).2.cache = (t.use u).2.cache := by
  cases u with
  | get key exchange => simp only [use, offer, h, and_self]
  | clear => exact ⟨rfl, rfl⟩

theorem answers_congr (h : s.cache = t.cache) (uses : List Use) :
    s.answers uses = t.answers uses := by
  induction uses generalizing s t with
  | nil => rfl
  | cons u rest ih =>
    obtain ⟨hu, hc⟩ := use_congr h u
    rw [answers, answers, hu, ih hc]

theorem answers_append (s : Session) (uses later : List Use) :
    s.answers (uses ++ later) = s.answers uses ++ (s.after uses).answers later := by
  induction uses generalizing s with
  | nil => rfl
  | cons u rest ih =>
    rw [List.cons_append, answers, ih]
    rfl

theorem after_concat (s : Session) (uses : List Use) (u : Use) :
    s.after (uses ++ [u]) = ((s.after uses).use u).2 := by
  rw [after, List.foldl_append]
  rfl

end Uses

end Session

/-! ## Looking back

The past is a row of events, the latest first. -/

namespace Event

def isClear : Event → Bool
  | .cleared => true
  | .got _ _ _ => false

def fetch? (key : Key) : Event → Option (Except Error Json)
  | .got k (_ :: _) result => if k = key then some result else none
  | _ => none

def served? : Event → Option Key
  | .got key _ (.ok _) => some key
  | _ => none

end Event

def sinceClear (past : List Event) : List Event := past.takeWhile (fun e => !e.isClear)

def latestFetch? (key : Key) (past : List Event) : Option (Except Error Json) :=
  past.findSome? (Event.fetch? key)

/-- The keys asked for with success since the key itself last was. -/
def servedSince (key : Key) (past : List Event) : Finset Key :=
  ((past.takeWhile (fun e => e.served? != some key)).filterMap Event.served?).toFinset

/-- The state of a key is at hand: since the last clearing it was fetched, the latest request for
it gave this state, and then fewer than 256 other keys were asked for with success. -/
structure AtHand (past : List Event) (key : Key) (state : Json) : Prop where
  fetched : latestFetch? key (sinceClear past) = some (.ok state)
  recent : (servedSince key (sinceClear past)).card < 256

section Past

variable {key k : Key} {posts : List Post} {past : List Event}

theorem sinceClear_got (result : Except Error Json) :
    sinceClear (.got k posts result :: past) = .got k posts result :: sinceClear past := rfl

theorem latestFetch?_of_ne (h : k ≠ key) (result : Except Error Json) :
    latestFetch? key (.got k posts result :: past) = latestFetch? key past := by
  have hf : Event.fetch? key (.got k posts result) = none := by
    cases posts with
    | nil => rfl
    | cons p more => exact if_neg h
  rw [latestFetch?, List.findSome?_cons, hf]
  rfl

theorem latestFetch?_of_unsent (result : Except Error Json) :
    latestFetch? key (.got k [] result :: past) = latestFetch? key past := rfl

theorem latestFetch?_of_sent (p : Post) (result : Except Error Json) :
    latestFetch? key (.got key (p :: posts) result :: past) = some result := by
  have hf : Event.fetch? key (.got key (p :: posts) result) = some result := if_pos rfl
  rw [latestFetch?, List.findSome?_cons, hf]

theorem servedSince_refused (e : Error) :
    servedSince key (.got k posts (.error e) :: past) = servedSince key past := rfl

theorem servedSince_self (state : Json) :
    servedSince key (.got key posts (.ok state) :: past) = ∅ := by
  simp [servedSince, Event.served?]

theorem servedSince_of_ne (h : k ≠ key) (state : Json) :
    servedSince key (.got k posts (.ok state) :: past) = insert k (servedSince key past) := by
  simp [servedSince, Event.served?, h]

end Past

/-! ## The ledger -/

/-- All keys asked for with success since the last clearing, the latest first, each with what
was then answered. -/
def ledger : List Event → Cache
  | [] => []
  | .cleared :: _ => []
  | .got key _ (.ok state) :: past => (key, state) :: (ledger past).filter (fun row => row.1 != key)
  | .got _ _ (.error _) :: past => ledger past

theorem ledger_nodup (past : List Event) : ((ledger past).map Prod.fst).Nodup := by
  induction past with
  | nil => exact List.nodup_nil
  | cons e past ih =>
    rcases e with ⟨key, posts, e | state⟩ | _
    · exact ih
    · have hf : (((ledger past).filter fun row => row.1 != key).map Prod.fst).Nodup :=
        ih.sublist (List.filter_sublist.map Prod.fst)
      have hk : key ∉ ((ledger past).filter fun row => row.1 != key).map Prod.fst := by
        simp
      exact List.nodup_cons.mpr ⟨hk, hf⟩
    · exact List.nodup_nil

theorem takeWhile_filter_comm {α : Type} {p q : α → Bool} (h : ∀ x, p x = false → q x = true)
    (l : List α) : (l.filter q).takeWhile p = (l.takeWhile p).filter q := by
  induction l with
  | nil => rfl
  | cons x l ih =>
    by_cases hp : p x = true
    · by_cases hq : q x = true
      · simp [hp, hq, ih]
      · simp [hp, hq, ih]
    · have hq := h x (Bool.eq_false_of_not_eq_true hp)
      simp [hp, hq]

/-- The keys in front of a key in the ledger are those served since it was. -/
theorem toFinset_takeWhile_ledger (key : Key) (past : List Event) :
    (((ledger past).takeWhile fun row => row.1 != key).map Prod.fst).toFinset =
      servedSince key (sinceClear past) := by
  induction past with
  | nil => rfl
  | cons e past ih =>
    rcases e with ⟨k, posts, e | state⟩ | _
    · rw [sinceClear_got, servedSince_refused, ← ih]
      rfl
    · rw [sinceClear_got, ledger]
      by_cases hk : k = key
      · subst hk
        rw [servedSince_self]
        simp
      · have hc : ∀ row : Key × Json, (row.1 != key) = false → (row.1 != k) = true := by
          intro row hr
          simp only [bne_eq_false_iff_eq] at hr
          simpa [hr] using Ne.symm hk
        rw [servedSince_of_ne hk, ← ih, List.takeWhile_cons_of_pos (by simpa using hk),
          takeWhile_filter_comm hc]
        ext x
        simp only [List.map_cons, List.toFinset_cons, Finset.mem_insert, List.mem_toFinset,
          List.mem_map, List.mem_filter, bne_iff_ne]
        grind
    · rfl

/-- The place of a key in the ledger is the number of other keys served since it was. -/
theorem length_takeWhile_ledger (key : Key) (past : List Event) :
    ((ledger past).takeWhile fun row => row.1 != key).length =
      (servedSince key (sinceClear past)).card := by
  have hn : (((ledger past).takeWhile fun row => row.1 != key).map Prod.fst).Nodup :=
    (ledger_nodup past).sublist ((List.takeWhile_sublist _).map Prod.fst)
  rw [← toFinset_takeWhile_ledger, List.toFinset_card_of_nodup hn, List.length_map]

theorem exists_ledger_of_latestFetch? {key : Key} {state : Json} {past : List Event}
    (h : latestFetch? key (sinceClear past) = some (.ok state)) :
    ∃ v, (ledger past).get? key = some v := by
  induction past with
  | nil => cases h
  | cons e past ih =>
    rcases e with ⟨k, posts, e | v⟩ | _
    · rw [sinceClear_got] at h
      by_cases hk : k = key
      · subst hk
        cases posts with
        | nil => exact ih h
        | cons p more =>
          rw [latestFetch?_of_sent] at h
          cases h
      · rw [latestFetch?_of_ne hk] at h
        exact ih h
    · by_cases hk : k = key
      · subst hk
        exact ⟨v, Table.get?_cons_self _ _ _⟩
      · rw [sinceClear_got, latestFetch?_of_ne hk] at h
        obtain ⟨w, hw⟩ := ih h
        refine ⟨w, ?_⟩
        rw [ledger, Table.get?_cons_of_ne (Ne.symm hk), Table.get?_filter_of_ne (Ne.symm hk), hw]
    · cases h

/-! ## The cache as the front of the ledger -/

theorem get?_take_eq_some_iff {κ α : Type} [BEq κ] [LawfulBEq κ] (t : Table κ α) (n : Nat)
    (key : κ) (v : α) :
    Table.get? (t.take n) key = some v ↔
      t.get? key = some v ∧ (t.takeWhile fun row => row.1 != key).length < n := by
  induction t generalizing n with
  | nil => simp [Table.get?]
  | cons row t ih =>
    obtain ⟨k, w⟩ := row
    cases n with
    | zero => simp [Table.get?]
    | succ n =>
      by_cases hk : k = key
      · subst hk
        simp [Table.get?_cons_self]
      · rw [List.take_succ_cons, Table.get?_cons_of_ne (Ne.symm hk),
          Table.get?_cons_of_ne (Ne.symm hk), ih n,
          List.takeWhile_cons_of_pos (by simpa using hk), List.length_cons, Nat.succ_lt_succ_iff]

/-- A key stands in the ledger once, so that dropping it from the front part brings at most one
row too few. -/
theorem take_filter_take {t : Cache} (h : (t.map Prod.fst).Nodup) (key : Key) (n : Nat) :
    ((t.take (n + 1)).filter fun row => row.1 != key).take n =
      (t.filter fun row => row.1 != key).take n := by
  induction t generalizing n with
  | nil => rfl
  | cons row t ih =>
    obtain ⟨k, v⟩ := row
    rw [List.map_cons, List.nodup_cons] at h
    by_cases hk : k = key
    · subst hk
      have hall : ∀ row ∈ t, (row.1 != k) = true := by
        intro row hr
        have hm := List.mem_map_of_mem (f := Prod.fst) hr
        simp only [bne_iff_ne]
        rintro rfl
        exact h.1 hm
      have hfront : ∀ row ∈ t.take n, (row.1 != k) = true :=
        fun row hr => hall row (List.mem_of_mem_take hr)
      rw [List.take_succ_cons, List.filter_cons_of_neg (by simp),
        List.filter_cons_of_neg (by simp), List.filter_eq_self.mpr hall,
        List.filter_eq_self.mpr hfront, List.take_take, Nat.min_self]
    · cases n with
      | zero => simp
      | succ n =>
        rw [List.take_succ_cons, List.filter_cons_of_pos (by simpa using hk),
          List.filter_cons_of_pos (by simpa using hk), List.take_succ_cons, List.take_succ_cons,
          ih h.2]

theorem remember_take {t : Cache} (h : (t.map Prod.fst).Nodup) (key : Key) (state : Json) :
    Session.remember (t.take capacity) key state =
      ((key, state) :: t.filter fun row => row.1 != key).take capacity := by
  have hc : capacity = 255 + 1 := rfl
  rw [Session.remember, hc, List.take_succ_cons, List.take_succ_cons, take_filter_take h]

structure Session.Follows (s : Session) (past : List Event) : Prop where
  front : s.cache = (ledger past).take capacity
  fetched : ∀ key state, s.cache.get? key = some state →
    latestFetch? key (sinceClear past) = some (.ok state)

namespace Session

theorem follows_new : (Session.new []).Follows [] := ⟨rfl, by intro key state h; cases h⟩

variable {s : Session} {past : List Event}

theorem get?_remember_of_ne {k key : Key} (h : k ≠ key) {v state : Json} {cache : Cache}
    (hg : (remember cache key state).get? k = some v) : cache.get? k = some v := by
  rw [remember, get?_take_eq_some_iff, Table.get?_cons_of_ne h, Table.get?_filter_of_ne h] at hg
  exact hg.1

theorem get?_remember_self {key : Key} {v state : Json} {cache : Cache}
    (hg : (remember cache key state).get? key = some v) : v = state := by
  rw [remember, get?_take_eq_some_iff, Table.get?_cons_self] at hg
  exact (Option.some.inj hg.1).symm

theorem Follows.use (h : s.Follows past) (u : Use) :
    (s.use u).2.Follows ((s.use u).1 :: past) := by
  cases u with
  | clear => exact ⟨rfl, by intro key state h; cases h⟩
  | get key exchange =>
    cases hk : s.cache.get? key with
    | some state =>
      rw [use_get_of_kept hk]
      refine ⟨?_, ?_⟩
      · rw [h.front]
        exact remember_take (ledger_nodup past) key state
      · intro k v hv
        rw [sinceClear_got, latestFetch?_of_unsent]
        by_cases hkk : k = key
        · subst hkk
          rw [get?_remember_self hv]
          exact h.fetched k state hk
        · exact h.fetched k v (get?_remember_of_ne hkk hv)
    | none =>
      cases hs : stateOf (exchange (Post.forState key)) with
      | ok state =>
        rw [use_get_of_fetched hk hs]
        refine ⟨?_, ?_⟩
        · rw [h.front]
          exact remember_take (ledger_nodup past) key state
        · intro k v hv
          rw [sinceClear_got]
          by_cases hkk : k = key
          · subst hkk
            rw [get?_remember_self hv, latestFetch?_of_sent]
          · rw [latestFetch?_of_ne (Ne.symm hkk)]
            exact h.fetched k v (get?_remember_of_ne hkk hv)
      | error e =>
        rw [use_get_of_refused hk hs]
        refine ⟨h.front, ?_⟩
        intro k v hv
        have hkk : key ≠ k := by
          rintro rfl
          rw [hk] at hv
          cases hv
        rw [sinceClear_got, latestFetch?_of_ne hkk]
        exact h.fetched k v hv

theorem follows_after (uses : List Use) :
    ((new []).after uses).Follows ((new []).answers uses).reverse := by
  induction uses using List.reverseRecOn with
  | nil => exact follows_new
  | append_singleton uses u ih =>
    rw [answers_append, after_concat, List.reverse_append]
    exact ih.use u

theorem response_of_fetch? {s : Session} {uses : List Use} {event : Event} {key : Key}
    {result : Except Error Json} (he : event ∈ s.answers uses)
    (hf : event.fetch? key = some result) :
    ∃ exchange, .get key exchange ∈ uses ∧ stateOf (exchange (Post.forState key)) = result := by
  induction uses generalizing s with
  | nil => cases he
  | cons u rest ih =>
    rcases List.mem_cons.mp he with rfl | he
    · cases u with
      | clear => cases hf
      | get k exchange =>
        cases hk : s.cache.get? k with
        | some state =>
          rw [use_get_of_kept hk] at hf
          cases hf
        | none =>
          rw [event_of_absent hk] at hf
          obtain ⟨rfl, hr⟩ := Option.ite_none_right_eq_some.mp hf
          exact ⟨exchange, List.mem_cons_self, Option.some.inj hr⟩
    · obtain ⟨exchange, hm, hr⟩ := ih he
      exact ⟨exchange, List.mem_cons_of_mem u hm, hr⟩

/-- A state that is kept came in a response to an earlier use. -/
theorem origin_of_kept {uses : List Use} {key : Key} {state : Json}
    (h : ((new []).after uses).cache.get? key = some state) :
    ∃ exchange, .get key exchange ∈ uses ∧ stateOf (exchange (Post.forState key)) = .ok state := by
  have hf := (follows_after uses).fetched key state h
  obtain ⟨event, he, hf⟩ := List.exists_of_findSome?_eq_some hf
  have hm := (List.takeWhile_sublist _).subset he
  exact response_of_fetch? (List.mem_reverse.mp hm) hf

theorem Follows.get?_eq_some_iff (h : s.Follows past) (key : Key) (state : Json) :
    s.cache.get? key = some state ↔ AtHand past key state := by
  have hplace : ∀ v, s.cache.get? key = some v ↔
      (ledger past).get? key = some v ∧ (servedSince key (sinceClear past)).card < 256 := by
    intro v
    rw [h.front, get?_take_eq_some_iff, length_takeWhile_ledger]
    rfl
  constructor
  · intro hg
    exact ⟨h.fetched key state hg, ((hplace state).mp hg).2⟩
  · rintro ⟨hf, hr⟩
    obtain ⟨v, hv⟩ := exists_ledger_of_latestFetch? hf
    have hg := (hplace v).mpr ⟨hv, hr⟩
    have hlatest := h.fetched key v hg
    rw [hf] at hlatest
    cases hlatest
    exact hg

/-- A contract that is at hand is answered without the node, and with the state at hand. For any
other contract exactly one request is sent, and its response decides. A request that fails leaves
the cache as it was, so that all that is asked for later is answered as without it. -/
theorem use_get_by_history (uses : List Use) (key : Key) (exchange : Exchange) :
    let s := (new []).after uses
    let past := ((new []).answers uses).reverse
    let event := (s.use (.get key exchange)).1
    (∀ state, event = .got key [] (.ok state) ↔ AtHand past key state) ∧
    ((∀ state, ¬AtHand past key state) →
      event = .got key [Post.forState key] (stateOf (exchange (Post.forState key)))) ∧
    (∀ posts e, event = .got key posts (.error e) →
      (s.use (.get key exchange)).2.cache = s.cache ∧
      ∀ later, ∃ rest, (new []).answers (uses ++ later) = (new []).answers uses ++ rest ∧
        (new []).answers (uses ++ .get key exchange :: later) =
          (new []).answers uses ++ event :: rest) := by
  intro s past event
  have hat := (follows_after uses).get?_eq_some_iff key
  refine ⟨?_, ?_, ?_⟩
  · intro state
    rw [← hat state]
    constructor
    · intro he
      cases hk : s.cache.get? key with
      | some v =>
        have hv : event = .got key [] (.ok v) := congrArg Prod.fst (use_get_of_kept hk)
        cases hv.symm.trans he
        rfl
      | none => cases (event_of_absent hk).symm.trans he
    · intro hk
      exact congrArg Prod.fst (use_get_of_kept hk)
  · intro hn
    apply event_of_absent
    cases hk : s.cache.get? key with
    | none => rfl
    | some state => exact absurd ((hat state).mp hk) (hn state)
  · intro posts e he
    have hc := cache_of_failed he
    refine ⟨hc, fun later => ⟨s.answers later, answers_append _ _ _, ?_⟩⟩
    rw [answers_append, answers, answers_congr hc]

/-- Of two contracts, one is fetched and the other is not. The first is then answered without the
node, for the second the node is asked again, and one more failure changes nothing. -/
theorem use_get_by_history_sample :
    let known : Key := ⟨"1", "http://node"⟩
    let other : Key := ⟨"2", "http://node"⟩
    let state : Json := .object [("nef", .int 1)]
    let good : Exchange := fun _ => .answered ⟨.object [("result", state)], by decide⟩
    let down : Exchange := fun _ => .refused "down"
    let uses : List Use := [.get known good, .get other down]
    let s := (new []).after uses
    (s.use (.get known down)).1 = .got known [] (.ok state) ∧
      (s.use (.get other good)).1 = .got other [Post.forState other] (.ok state) ∧
      (s.use (.get other down)).2.cache = s.cache := by
  intro known other state good down uses s
  have hgood : stateOf (good (Post.forState other)) = .ok state := by cbv
  have hpast : ((new []).answers uses).reverse =
      [.got other [Post.forState other] (.error (.requestFailed "down")),
        .got known [Post.forState known] (.ok state)] := by
    cbv
  have hne : other ≠ known := by decide
  have hknown : AtHand ((new []).answers uses).reverse known state := by
    rw [hpast]
    refine ⟨?_, ?_⟩
    · rw [sinceClear_got, sinceClear_got, latestFetch?_of_ne hne, latestFetch?_of_sent]
    · rw [sinceClear_got, sinceClear_got, servedSince_refused, servedSince_self]
      decide
  have hother : ∀ v, ¬AtHand ((new []).answers uses).reverse other v := by
    rintro v ⟨hf, -⟩
    rw [hpast, sinceClear_got, latestFetch?_of_sent] at hf
    cases hf
  have hasked := (use_get_by_history uses other good).2.1 hother
  have hfailed := (use_get_by_history uses other down).2.1 hother
  refine ⟨((use_get_by_history uses known down).1 state).mpr hknown, ?_, ?_⟩
  · rw [hasked]
    exact congrArg (Event.got other [Post.forState other]) hgood
  · exact ((use_get_by_history uses other down).2.2 _ _ hfailed).1

end Session

end NeoListing.Node
