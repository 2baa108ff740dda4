import ClassCollapse.Proofs.Naming.NameTable
import ClassCollapse.Proofs.Text.Trim

/-!
# The budget of the strategy

All requests share one budget of calls. A request for a new key makes a run of equal calls, which
ends with the first name, the first failure, the last attempt or the end of the budget; any other
request makes none. What a key is called, before names are set apart, is decided by the only word of
its class list, by that name, or by a digest and a number.
-/

namespace ClassCollapse

theorem RandomSource.drawWithin_lt {bound : Nat} (h : 0 < bound) (tries : Nat) (r : RandomSource) :
    (drawWithin bound tries r).1 < bound := by
  have hWord : ∀ source : RandomSource, source.word.toNat * bound / 2 ^ 32 < bound := by
    intro source
    have hLt : source.word.toNat < 2 ^ 32 := source.word.toNat_lt
    exact Nat.div_lt_of_lt_mul (Nat.mul_lt_mul_of_pos_right hLt h)
  induction tries generalizing r with
  | zero => exact hWord r
  | succ tries ih =>
    have hStep : drawWithin bound (tries + 1) r =
        if r.word.toNat * bound % 2 ^ 32 ≤ zone bound then
          (r.word.toNat * bound / 2 ^ 32, r.advance)
        else drawWithin bound tries r.advance := rfl
    rw [hStep]
    split
    · exact hWord r
    · exact ih r.advance

namespace NameResolver

def NameRequest.call (q : NameRequest) : NamingCall :=
  ⟨q.tag, q.classList⟩

/-! ## The calls about one request -/

/-- The resolver after `n` calls about one request. -/
def afterCalls (r : NameResolver) (call : NamingCall) (n : Nat) : NameResolver :=
  { r with calls := r.calls ++ List.replicate n call, invocations := r.invocations + n }

/-- The answer to the call that follows `made` calls about the same request. -/
def answer? (r : NameResolver) (call : NamingCall) (made : Nat) :
    Option (Except NamingError String) :=
  r.strategy.map fun ask => ask (r.calls ++ List.replicate made call) call

/-- The name in an answer. A failure holds none, nor does a text without characters of a name. -/
def nameIn? : Except NamingError String → Option String
  | .error _ => none
  | .ok answer => if (Naming.sanitize answer).isEmpty then none else some (Naming.sanitize answer)

/-- The name that the call after `made` calls brings. -/
def suggestion? (r : NameResolver) (call : NamingCall) (made : Nat) : Option String :=
  (r.answer? call made).bind nameIn?

/-- The name that the last of some calls brings. -/
def lastSuggestion? (r : NameResolver) (call : NamingCall) : Nat → Option String
  | 0 => none
  | n + 1 => r.suggestion? call n

/-- A request makes `n` calls out of at most `attempts`. -/
structure Asks (r : NameResolver) (call : NamingCall) (attempts n : Nat) : Prop where
  le_attempts : n ≤ attempts
  within_budget : 0 < n → r.strategy.isSome ∧ r.invocations + n ≤ r.maxInvocations
  /-- Only an answer without a name is followed by another call. -/
  retried : ∀ i, i + 1 < n → ∃ answer, r.answer? call i = some (.ok answer) ∧
    Naming.sanitize answer = ""
  /-- There are reasons to stop before the last attempt. -/
  stopped : n < attempts → r.strategy = none ∨ r.maxInvocations ≤ r.invocations + n ∨
    ∃ i, i + 1 = n ∧ ((∃ failure, r.answer? call i = some (.error failure)) ∨
      ∃ body, r.suggestion? call i = some body)

theorem afterCalls_zero (r : NameResolver) (call : NamingCall) : r.afterCalls call 0 = r := by
  simp only [afterCalls, List.replicate_zero, List.append_nil, Nat.add_zero]

theorem afterCalls_afterCalls (r : NameResolver) (call : NamingCall) (m n : Nat) :
    (r.afterCalls call m).afterCalls call n = r.afterCalls call (m + n) := by
  simp only [afterCalls, List.append_assoc, List.replicate_append_replicate, Nat.add_assoc]

theorem answer?_afterCalls (r : NameResolver) (call : NamingCall) (m i : Nat) :
    (r.afterCalls call m).answer? call i = r.answer? call (m + i) := by
  simp only [answer?, afterCalls, List.append_assoc, List.replicate_append_replicate]

theorem suggestion?_afterCalls (r : NameResolver) (call : NamingCall) (m i : Nat) :
    (r.afterCalls call m).suggestion? call i = r.suggestion? call (m + i) := by
  rw [suggestion?, answer?_afterCalls, suggestion?]

theorem asks_zero {r : NameResolver} (call : NamingCall) {attempts : Nat}
    (h : 0 < attempts → r.strategy = none ∨ r.maxInvocations ≤ r.invocations) :
    r.Asks call attempts 0 where
  le_attempts := Nat.zero_le _
  within_budget h := absurd h (Nat.lt_irrefl 0)
  retried _ h := absurd h (Nat.not_lt_zero _)
  stopped hLess := (h hLess).imp_right .inl

/-- A call that is answered by a failure or a name is the last one. -/
theorem asks_one {r : NameResolver} {call : NamingCall} (attempts : Nat)
    (hStrategy : r.strategy.isSome) (hBudget : r.invocations < r.maxInvocations)
    (h : (∃ failure, r.answer? call 0 = some (.error failure)) ∨
      ∃ body, r.suggestion? call 0 = some body) : r.Asks call (attempts + 1) 1 where
  le_attempts := Nat.le_add_left 1 attempts
  within_budget _ := ⟨hStrategy, hBudget⟩
  retried i hi := by omega
  stopped _ := .inr (.inr ⟨0, rfl, h⟩)

/-- After an answer without a name, the calls are those that the rest of the attempts makes. -/
theorem Asks.succ {r : NameResolver} {call : NamingCall} {attempts n : Nat}
    (h : (r.afterCalls call 1).Asks call attempts n) (hStrategy : r.strategy.isSome)
    (hBudget : r.invocations < r.maxInvocations) {answer : String}
    (hAnswer : r.answer? call 0 = some (.ok answer)) (hEmpty : Naming.sanitize answer = "") :
    r.Asks call (attempts + 1) (n + 1) where
  le_attempts := Nat.succ_le_succ h.le_attempts
  within_budget _ := by
    refine ⟨hStrategy, ?_⟩
    rcases Nat.eq_zero_or_pos n with rfl | hMore
    · exact hBudget
    · have hLater : r.invocations + 1 + n ≤ r.maxInvocations := (h.within_budget hMore).2
      omega
  retried i hi := by
    cases i with
    | zero => exact ⟨answer, hAnswer, hEmpty⟩
    | succ i =>
      have hLater := h.retried i (by omega)
      rwa [answer?_afterCalls, Nat.add_comm 1 i] at hLater
  stopped hLess := by
    rcases h.stopped (by omega) with hNone | hSpent | ⟨i, rfl, hLast⟩
    · exact .inl hNone
    · have hSpent : r.maxInvocations ≤ r.invocations + 1 + n := hSpent
      exact .inr (.inl (by omega))
    · rw [answer?_afterCalls, suggestion?_afterCalls, Nat.add_comm 1 i] at hLast
      exact .inr (.inr ⟨i + 1, rfl, hLast⟩)

theorem requestName_of_stopped {r : NameResolver} (q : NameRequest) (attempts : Nat)
    (h : r.strategy = none ∨ r.maxInvocations ≤ r.invocations) :
    requestName q.tag q.classList (attempts + 1) r = (none, r) := by
  rw [requestName]
  split
  · rfl
  next ask hAsk =>
    rcases h with hNone | hSpent
    · rw [hNone] at hAsk
      cases hAsk
    · exact if_pos hSpent

theorem requestName_of_failure {r : NameResolver} {q : NameRequest} (attempts : Nat)
    (hBudget : r.invocations < r.maxInvocations) {failure : NamingError}
    (h : r.answer? q.call 0 = some (.error failure)) :
    requestName q.tag q.classList (attempts + 1) r = (none, r.afterCalls q.call 1) := by
  obtain ⟨ask, hAsk, hAnswer⟩ := Option.map_eq_some_iff.mp h
  rw [List.replicate_zero, List.append_nil] at hAnswer
  rw [requestName]
  split
  next hNone => rw [hNone] at hAsk; cases hAsk
  next ask' hAsk' =>
    rw [hAsk] at hAsk'
    cases hAsk'
    rw [if_neg (Nat.not_le_of_lt hBudget)]
    dsimp only
    rw [show ask r.calls ⟨q.tag, q.classList⟩ = .error failure from hAnswer]
    rfl

theorem requestName_of_answer {r : NameResolver} {q : NameRequest} (attempts : Nat)
    (hBudget : r.invocations < r.maxInvocations) {answer : String}
    (h : r.answer? q.call 0 = some (.ok answer)) :
    requestName q.tag q.classList (attempts + 1) r =
      if (Naming.sanitize answer).isEmpty then
        requestName q.tag q.classList attempts (r.afterCalls q.call 1)
      else (some (Naming.sanitize answer), r.afterCalls q.call 1) := by
  obtain ⟨ask, hAsk, hAnswer⟩ := Option.map_eq_some_iff.mp h
  rw [List.replicate_zero, List.append_nil] at hAnswer
  rw [requestName]
  split
  next hNone => rw [hNone] at hAsk; cases hAsk
  next ask' hAsk' =>
    rw [hAsk] at hAsk'
    cases hAsk'
    rw [if_neg (Nat.not_le_of_lt hBudget)]
    dsimp only
    rw [show ask r.calls ⟨q.tag, q.classList⟩ = .ok answer from hAnswer]
    rfl

/-- What asking does is decided by how many calls it makes, and the last of them decides what it
finds. -/
theorem requestName_eq (q : NameRequest) (attempts : Nat) (r : NameResolver) :
    ∃ n, r.Asks q.call attempts n ∧ requestName q.tag q.classList attempts r =
      (r.lastSuggestion? q.call n, r.afterCalls q.call n) := by
  induction attempts generalizing r with
  | zero =>
    refine ⟨0, asks_zero _ fun h => absurd h (Nat.lt_irrefl 0), ?_⟩
    rw [requestName, lastSuggestion?, afterCalls_zero]
  | succ attempts ih =>
    by_cases hSpent : r.strategy = none ∨ r.maxInvocations ≤ r.invocations
    · rw [requestName_of_stopped q attempts hSpent]
      refine ⟨0, asks_zero _ fun _ => hSpent, ?_⟩
      rw [lastSuggestion?, afterCalls_zero]
    obtain ⟨hSome, hMore⟩ := not_or.mp hSpent
    have hBudget : r.invocations < r.maxInvocations := Nat.lt_of_not_le hMore
    have hStrategy : r.strategy.isSome := Option.isSome_iff_ne_none.mpr hSome
    obtain ⟨ask, hAsk⟩ := Option.ne_none_iff_exists'.mp hSome
    have hAnswer : r.answer? q.call 0 = some (ask r.calls q.call) := by
      rw [answer?, hAsk, Option.map_some, List.replicate_zero, List.append_nil]
    cases hText : ask r.calls q.call with
    | error failure =>
      rw [hText] at hAnswer
      rw [requestName_of_failure attempts hBudget hAnswer]
      refine ⟨1, asks_one attempts hStrategy hBudget (.inl ⟨failure, hAnswer⟩), ?_⟩
      rw [lastSuggestion?, suggestion?, hAnswer, Option.bind_some, nameIn?]
    | ok answer =>
      rw [hText] at hAnswer
      have hFound : r.suggestion? q.call 0 = nameIn? (.ok answer) := by
        rw [suggestion?, hAnswer, Option.bind_some]
      rw [requestName_of_answer attempts hBudget hAnswer]
      rw [nameIn?] at hFound
      split at hFound
      next hEmpty =>
        rw [if_pos hEmpty]
        obtain ⟨n, hAsks, hResult⟩ := ih (r.afterCalls q.call 1)
        refine ⟨n + 1, hAsks.succ hStrategy hBudget hAnswer (String.isEmpty_iff.mp hEmpty), ?_⟩
        rw [hResult, afterCalls_afterCalls, Nat.add_comm 1 n]
        cases n with
        | zero => rw [lastSuggestion?, lastSuggestion?, hFound]
        | succ n =>
          rw [lastSuggestion?, suggestion?_afterCalls, Nat.add_comm 1 n, lastSuggestion?]
      next hSomeName =>
        rw [if_neg hSomeName]
        refine ⟨1, asks_one attempts hStrategy hBudget (.inr ⟨_, hFound⟩), ?_⟩
        rw [lastSuggestion?, hFound]

theorem Asks.lastSuggestion?_eq {r : NameResolver} {call : NamingCall} {attempts n i : Nat}
    (h : r.Asks call attempts n) (hi : i < n) {body : String}
    (hBody : r.suggestion? call i = some body) : r.lastSuggestion? call n = some body := by
  by_cases hMore : i + 1 < n
  · obtain ⟨answer, hAnswer, hEmpty⟩ := h.retried i hMore
    rw [suggestion?, hAnswer, Option.bind_some, nameIn?, if_pos (String.isEmpty_iff.mpr hEmpty)]
      at hBody
    cases hBody
  · have hLast : n = i + 1 := by omega
    rw [hLast, lastSuggestion?, hBody]

theorem lastSuggestion?_eq_none {r : NameResolver} {call : NamingCall} {n : Nat}
    (h : ∀ i < n, r.suggestion? call i = none) : r.lastSuggestion? call n = none := by
  cases n with
  | zero => rfl
  | succ n => exact h n (Nat.lt_succ_self n)

/-! ## A request for a new key -/

theorem ownName?_eq_some_iff {classList body : String} : ownName? classList = some body ↔
    ∃ word, Text.words classList = [word] ∧ Naming.sanitize word = body ∧ body ≠ "" := by
  rw [ownName?]
  constructor
  · intro h
    split at h
    · cases h
    next hOne =>
      split at h
      · cases h
      next hSome =>
        obtain rfl := Option.some.inj h
        have hNonempty : Naming.sanitize (Text.trim classList) ≠ "" :=
          fun hEmpty => hSome (String.isEmpty_iff.mpr hEmpty)
        refine ⟨Text.trim classList, Text.words_eq_singleton_iff.mpr ⟨rfl, ?_, ?_⟩, rfl, hNonempty⟩
        · intro hNil
          apply hNonempty
          rw [String.toList_eq_nil_iff.mp hNil]
          rfl
        · simpa using hOne
  · rintro ⟨word, hWord, rfl, hNonempty⟩
    obtain ⟨rfl, hIsWord⟩ := Text.words_eq_singleton_iff.mp hWord
    have hOne : (Text.trim classList).toList.any Text.isBlank = false := by
      simpa using hIsWord.2
    rw [hOne, if_neg Bool.false_ne_true,
      if_neg fun hEmpty => hNonempty (String.isEmpty_iff.mp hEmpty)]

/-- A class list of one word that holds a character of a name. -/
def HasOwnName (classList : String) : Prop :=
  ∃ word, Text.words classList = [word] ∧ Naming.sanitize word ≠ ""

/-- A request for a new key makes `n` calls and decides its name. -/
structure Resolves (r : NameResolver) (q : NameRequest) (n : Nat) : Prop where
  calls : (r.assign q.key q.tag q.classList).2.calls = r.calls ++ List.replicate n q.call
  invocations : (r.assign q.key q.tag q.classList).2.invocations = r.invocations + n
  /-- The only word of a class list names it without any call. -/
  own : ∀ word, Text.words q.classList = [word] → Naming.sanitize word ≠ "" →
    n = 0 ∧ (r.assign q.key q.tag q.classList).1 =
      disambiguate r.owners (r.namePrefix ++ Naming.sanitize word) q.key q.classList
  asked : ¬ HasOwnName q.classList → r.Asks q.call maxAttempts n
  suggested : ¬ HasOwnName q.classList → ∀ i < n, ∀ body, r.suggestion? q.call i = some body →
    (r.assign q.key q.tag q.classList).1 =
      disambiguate r.owners (r.namePrefix ++ body) q.key q.classList
  /-- Without a name in any answer, the digest of the class list and a number make one. -/
  fallback : ¬ HasOwnName q.classList → (∀ i < n, r.suggestion? q.call i = none) →
    ∃ k < 1000, (r.assign q.key q.tag q.classList).1 = disambiguate r.owners
      (r.namePrefix ++ (shortDigest q.classList ++ toString k)) q.key q.classList

theorem assign_of_resolveBody {r r' : NameResolver} {q : NameRequest}
    (hNew : r.nameFor? q.key = none) {body : String}
    (h : resolveBody q.tag q.classList r = (body, r')) :
    (r.assign q.key q.tag q.classList).1 =
        disambiguate r.owners (r.namePrefix ++ body) q.key q.classList ∧
      (r.assign q.key q.tag q.classList).2.calls = r'.calls ∧
      (r.assign q.key q.tag q.classList).2.invocations = r'.invocations := by
  obtain ⟨calls, invocations, random, hState⟩ := resolveBody_state q.tag q.classList r
  rw [h] at hState
  rw [assign, hNew]
  dsimp only
  rw [h]
  dsimp only at hState ⊢
  rw [hState]
  exact ⟨rfl, rfl, rfl⟩

theorem resolveBody_of_unnamed {r r' : NameResolver} {tag : Option String} {classList : String}
    (hOwn : ownName? classList = none)
    (h : requestName tag classList maxAttempts r = (none, r')) :
    resolveBody tag classList r =
      (shortDigest classList ++ toString (r'.random.draw 1000).1,
        { r' with random := (r'.random.draw 1000).2 }) := by
  rw [resolveBody, hOwn]
  dsimp only
  rw [h]
  rfl

theorem exists_resolves {r : NameResolver} {q : NameRequest} (hNew : r.nameFor? q.key = none) :
    ∃ n, n ≤ maxAttempts ∧ (0 < n → r.invocations + n ≤ r.maxInvocations) ∧ r.Resolves q n := by
  cases hOwn : ownName? q.classList with
  | some body =>
    have hBody : resolveBody q.tag q.classList r = (body, r) := by rw [resolveBody, hOwn]
    obtain ⟨hName, hCalls, hInvocations⟩ := assign_of_resolveBody hNew hBody
    obtain ⟨word, hWord, rfl, hNonempty⟩ := ownName?_eq_some_iff.mp hOwn
    have hHas : HasOwnName q.classList := ⟨word, hWord, hNonempty⟩
    refine ⟨0, Nat.zero_le _, fun h => absurd h (Nat.lt_irrefl 0), ?_⟩
    refine ⟨by simpa using hCalls, hInvocations, ?_, absurd hHas, absurd hHas, absurd hHas⟩
    intro other hOther _
    rw [hWord] at hOther
    cases hOther
    exact ⟨rfl, hName⟩
  | none =>
    have hNotOwn : ¬ HasOwnName q.classList := by
      rintro ⟨word, hWord, hNonempty⟩
      have hSome := ownName?_eq_some_iff.mpr ⟨word, hWord, rfl, hNonempty⟩
      rw [hOwn] at hSome
      cases hSome
    obtain ⟨n, hAsks, hRequest⟩ := requestName_eq q maxAttempts r
    have hBudget : 0 < n → r.invocations + n ≤ r.maxInvocations :=
      fun h => (hAsks.within_budget h).2
    refine ⟨n, hAsks.le_attempts, hBudget, ?_⟩
    cases hLast : r.lastSuggestion? q.call n with
    | some body =>
      have hBody : resolveBody q.tag q.classList r = (body, r.afterCalls q.call n) := by
        rw [resolveBody, hOwn]
        dsimp only
        rw [hRequest, hLast]
      obtain ⟨hName, hCalls, hInvocations⟩ := assign_of_resolveBody hNew hBody
      refine ⟨hCalls, hInvocations, fun word hWord hSome => absurd ⟨word, hWord, hSome⟩ hNotOwn,
        fun _ => hAsks, ?_, ?_⟩
      · intro _ i hi other hOther
        rw [hAsks.lastSuggestion?_eq hi hOther] at hLast
        cases hLast
        exact hName
      · intro _ hNone
        rw [lastSuggestion?_eq_none hNone] at hLast
        cases hLast
    | none =>
      have hBody := resolveBody_of_unnamed hOwn (hRequest.trans (by rw [hLast]))
      obtain ⟨hName, hCalls, hInvocations⟩ := assign_of_resolveBody hNew hBody
      refine ⟨hCalls, hInvocations, fun word hWord hSome => absurd ⟨word, hWord, hSome⟩ hNotOwn,
        fun _ => hAsks, ?_, ?_⟩
      · intro _ i hi other hOther
        rw [hAsks.lastSuggestion?_eq hi hOther] at hLast
        cases hLast
      · intro _ _
        exact ⟨((r.afterCalls q.call n).random.draw 1000).1,
          RandomSource.drawWithin_lt (by decide) _ _, hName⟩

/-! ## Any requests -/

/-- The calls that the requests for one key make. -/
def callsFor (key : CanonicalKey) : List NameRequest → NameResolver → List NamingCall
  | [], _ => []
  | q :: requests, r =>
    let after := (r.assign q.key q.tag q.classList).2
    if q.key = key then after.calls.drop r.calls.length ++ callsFor key requests after
    else callsFor key requests after

/-- Every call is counted, and the count stays within the budget. -/
structure Counted (r : NameResolver) : Prop where
  length_calls : r.calls.length = r.invocations
  within_budget : r.invocations ≤ r.maxInvocations

theorem settings_assign (r : NameResolver) (key : CanonicalKey) (tag : Option String)
    (classList : String) :
    (r.assign key tag classList).2.namePrefix = r.namePrefix ∧
      (r.assign key tag classList).2.maxInvocations = r.maxInvocations ∧
      (r.assign key tag classList).2.strategy = r.strategy := by
  obtain ⟨calls, invocations, random, hState⟩ := resolveBody_state tag classList r
  rw [assign]
  split
  · exact ⟨rfl, rfl, rfl⟩
  · dsimp only
    rw [hState]
    exact ⟨rfl, rfl, rfl⟩

theorem Counted.assign {r : NameResolver} (h : r.Counted) (key : CanonicalKey)
    (tag : Option String) (classList : String) : (r.assign key tag classList).2.Counted := by
  cases hKnown : r.nameFor? key with
  | some name =>
    rw [assign_known hKnown]
    exact h
  | none =>
    obtain ⟨n, _, hBudget, hResolves⟩ := exists_resolves (q := ⟨key, tag, classList⟩) hKnown
    constructor
    · rw [hResolves.calls, hResolves.invocations, List.length_append, List.length_replicate,
        h.length_calls]
    · rw [hResolves.invocations, (settings_assign r key tag classList).2.1]
      rcases Nat.eq_zero_or_pos n with rfl | hMore
      · exact h.within_budget
      · exact hBudget hMore

theorem callsFor_of_known {r : NameResolver} (h : r.Sound) {key : CanonicalKey} {name : String}
    (hKnown : r.nameFor? key = some name) (requests : List NameRequest) :
    callsFor key requests r = [] := by
  induction requests generalizing r with
  | nil => rfl
  | cons q requests ih =>
    have hRest := ih (sound_assign h q.key q.tag q.classList)
      (nameFor?_assign_of_known h hKnown q.key q.tag q.classList)
    rw [callsFor]
    split
    next hKey =>
      rw [hRest, List.append_nil, hKey, assign_known hKnown, List.drop_length]
    next => exact hRest

theorem nameFor?_assign_of_new {r : NameResolver} (h : r.Sound) {key other : CanonicalKey}
    (hOther : other ≠ key) (hNew : r.nameFor? key = none) (tag : Option String)
    (classList : String) : (r.assign other tag classList).2.nameFor? key = none := by
  cases hKnown : r.nameFor? other with
  | some name =>
    rw [assign_known hKnown]
    exact hNew
  | none =>
    rw [nameFor?] at hNew
    rw [nameFor?, (assign_new h hKnown tag classList).1, lookup_append_singleton, hNew,
      Option.none_or, if_neg]
    simpa using hOther.symm

/-- All calls about a key are made at the first request for it, and they are equal. -/
theorem exists_callsFor_eq {r : NameResolver} (h : r.Sound) {key : CanonicalKey}
    (hNew : r.nameFor? key = none) (requests : List NameRequest) :
    ∃ n, n ≤ maxAttempts ∧ callsFor key requests r =
      ((requests.find? fun q => q.key = key).map fun q => List.replicate n q.call).getD [] := by
  induction requests generalizing r with
  | nil => exact ⟨0, Nat.zero_le _, rfl⟩
  | cons q requests ih =>
    have hSound := sound_assign h q.key q.tag q.classList
    rw [callsFor]
    by_cases hKey : q.key = key
    · subst hKey
      obtain ⟨n, hLe, _, hResolves⟩ := exists_resolves hNew
      refine ⟨n, hLe, ?_⟩
      have hName := nameFor?_assign_self h q.key q.tag q.classList
      rw [if_pos rfl, callsFor_of_known hSound hName, List.append_nil, hResolves.calls,
        List.drop_left, List.find?_cons_of_pos (by simp)]
      rfl
    · have hStill := nameFor?_assign_of_new h hKey hNew q.tag q.classList
      rw [if_neg hKey, List.find?_cons_of_neg (by simpa using hKey)]
      exact ih hSound hStill

theorem isSome_nameFor?_assignAll_iff {r : NameResolver} (h : r.Sound)
    (requests : List NameRequest) (key : CanonicalKey) :
    ((assignAll requests r).nameFor? key).isSome ↔
      (r.nameFor? key).isSome ∨ key ∈ requests.map NameRequest.key := by
  induction requests generalizing r with
  | nil => simp [assignAll]
  | cons q requests ih =>
    have hRest := ih (sound_assign h q.key q.tag q.classList)
    rw [show assignAll (q :: requests) r =
      assignAll requests (r.assign q.key q.tag q.classList).2 from rfl, hRest, List.map_cons,
      List.mem_cons, ← or_assoc]
    refine or_congr_left ?_
    by_cases hKey : q.key = key
    · rw [← hKey, nameFor?_assign_self h]
      simp
    · cases hKnown : r.nameFor? key with
      | some name =>
        rw [nameFor?_assign_of_known h hKnown]
        simp
      | none =>
        rw [nameFor?_assign_of_new h hKey hKnown]
        simpa using Ne.symm hKey

theorem settings_assignAll (requests : List NameRequest) (r : NameResolver) :
    (assignAll requests r).namePrefix = r.namePrefix ∧
      (assignAll requests r).maxInvocations = r.maxInvocations ∧
      (assignAll requests r).strategy = r.strategy :=
  assignAll_induction
    (P := fun s => s.namePrefix = r.namePrefix ∧ s.maxInvocations = r.maxInvocations ∧
      s.strategy = r.strategy)
    (fun s key tag classList hs => by
      obtain ⟨hPrefix, hMax, hStrategy⟩ := settings_assign s key tag classList
      exact ⟨hPrefix.trans hs.1, hMax.trans hs.2.1, hStrategy.trans hs.2.2⟩) requests
    ⟨rfl, rfl, rfl⟩

/-- After any requests to a new resolver: the calls are counted and stay within the budget; the
calls about one key are at most the attempts, and all of them ask what the first request for it asks;
and a next request makes no call for a key that was asked for before, while for a new key it makes
the calls and gives the name that `Resolves` says. -/
theorem budget_assignAll (namePrefix : String) (maxInvocations : Nat)
    (strategy : Option NamingStrategy) (random : RandomSource) :
    let start := new namePrefix maxInvocations strategy random
    (∀ requests, (assignAll requests start).calls.length = (assignAll requests start).invocations ∧
      (assignAll requests start).invocations ≤ maxInvocations) ∧
    (∀ requests key, ∃ n, n ≤ maxAttempts ∧ callsFor key requests start =
      ((requests.find? fun q => q.key = key).map fun q => List.replicate n q.call).getD []) ∧
    ∀ before q,
      let r := assignAll before start
      (r.namePrefix = namePrefix ∧ r.maxInvocations = maxInvocations ∧ r.strategy = strategy) ∧
      (q.key ∈ before.map NameRequest.key → (r.assign q.key q.tag q.classList).2 = r) ∧
      (q.key ∉ before.map NameRequest.key → ∃ n, r.Resolves q n) := by
  intro start
  have hStart : start.Sound := sound_new _ _ _ _
  have hSettings := fun requests => settings_assignAll requests start
  have hCounted : ∀ requests, (assignAll requests start).Counted := fun requests =>
    assignAll_induction (fun _ key tag classList h => h.assign key tag classList) requests
      ⟨rfl, Nat.zero_le _⟩
  refine ⟨?_, fun requests key => exists_callsFor_eq hStart rfl requests, ?_⟩
  · intro requests
    refine ⟨(hCounted requests).length_calls, ?_⟩
    exact (hCounted requests).within_budget.trans (hSettings requests).2.1.le
  · intro before q r
    have hAsked := isSome_nameFor?_assignAll_iff hStart before q.key
    refine ⟨hSettings before, ?_, ?_⟩
    · intro hBefore
      obtain ⟨name, hKnown⟩ := Option.isSome_iff_exists.mp (hAsked.mpr (.inr hBefore))
      exact congrArg Prod.snd (assign_known hKnown q.tag q.classList)
    · intro hFirst
      have hNone : ¬ (r.nameFor? q.key).isSome := by
        intro hSome
        rcases hAsked.mp hSome with hNew | hBefore
        · cases hNew
        · exact hFirst hBefore
      obtain ⟨n, _, _, hResolves⟩ := exists_resolves (Option.not_isSome_iff_eq_none.mp hNone)
      exact ⟨n, hResolves⟩

end NameResolver

end ClassCollapse
