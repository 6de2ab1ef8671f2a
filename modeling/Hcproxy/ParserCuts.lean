import Hcproxy.Parser

set_option autoImplicit false

namespace Hcproxy.Parser

/-- How a stream ends once all of it has been read. -/
inductive Ending
  | eof
  | silence
  deriving DecidableEq

/-- A way of delivering the stream `s` to a handler with room for `capacity` bytes: what the
calls of `read()` return in each call of `OnEvent`, no more than the handler has room for. Each
of `calls` is cut short by `EAGAIN`; in `last` the stream ends. -/
structure Way (capacity : ℕ) (s : Bytes) where
  calls : List (List Bytes)
  last : List Bytes
  nonempty : ∀ chunk ∈ calls.flatten ++ last, chunk ≠ []
  delivers : (calls.flatten ++ last).flatten = s.take capacity

variable {capacity : ℕ} {s : Bytes}

/-- What the calls of `read()` answer on the way. -/
def Way.results (way : Way capacity s) (ending : Ending) : List (List ReadResult) :=
  way.calls.map (fun chunks => chunks.map .bytes ++ [.again]) ++
    [way.last.map .bytes ++ [match ending with | .eof => .bytes [] | .silence => .again]]

/-- The handler at the end of the stream. -/
def Way.outcome (way : Way capacity s) (ending : Ending) : Handler :=
  match ending with
  | .eof => serve capacity (.listening []) (way.results .eof)
  | .silence => onTimeout (serve capacity (.listening []) (way.results .silence))

/-- The length of the shortest prefix of `s` that ends with `"\r\n\r\n"`. -/
def endOfRequest (s : Bytes) : Option ℕ :=
  (List.range (s.length + 1)).find? fun p => endsWith (s.take p) terminator

/-- The callback receives the same string however `s` is cut, and a string that is not empty
comes after exactly the bytes of the request. -/
def CutIndependent (capacity : ℕ) (s : Bytes) (ending : Ending) : Prop :=
  ∀ first second : Way capacity s, ∃ host_port taken taken',
    first.outcome ending = .finished host_port taken ∧
    second.outcome ending = .finished host_port taken' ∧
    (host_port ≠ [] → taken = taken' ∧ endOfRequest s = some taken)

/-- The first `"\r\n\r\n"` of `s` ends a request for a host, there is room for more, and more
bytes follow it in the stream. -/
def Overrun (capacity : ℕ) (s : Bytes) : Prop :=
  ∃ p, endOfRequest s = some p ∧ kConnectPrefix <+: s ∧ hostPort (s.take p) ≠ some [] ∧
    p < capacity ∧ p < s.length

/-- The bytes read so far are not at odds with `kConnectPrefix`. -/
def Agrees (req : Bytes) : Prop :=
  req.take kConnectPrefix.length = kConnectPrefix.take req.length

/-- What a pass over bytes can end with. -/
inductive BytesPass (capacity : ℕ) (content data : Bytes) : Pass → Prop
  | mismatch (differs : ¬ Agrees (content ++ data)) :
      BytesPass capacity content data (.returns (some []) content)
  | ends {host_port : Bytes} (agrees : Agrees (content ++ data))
      (ended : endsWith (content ++ data) terminator = true)
      (host : hostPort (content ++ data) = some host_port) :
      BytesPass capacity content data (.returns (some host_port) (content ++ data))
  | eof (empty : data = []) : BytesPass capacity content data (.returns (some []) content)
  | full (agrees : Agrees (content ++ data)) (unended : endsWith (content ++ data) terminator = false)
      (filled : data ≠ []) (size : (content ++ data).length = capacity) :
      BytesPass capacity content data (.returns (some []) (content ++ data))
  | goesOn (agrees : Agrees (content ++ data))
      (unended : endsWith (content ++ data) terminator = false)
      (filled : data ≠ []) (size : (content ++ data).length ≠ capacity) :
      BytesPass capacity content data (.goesOn (content ++ data))

theorem agrees_append {content data : Bytes} (agrees : Agrees content) :
    Agrees (content ++ data) ↔ ¬ (content.length < kConnectPrefix.length ∧
      data.take (min data.length (kConnectPrefix.length - content.length)) ≠
        (kConnectPrefix.drop content.length).take
          (min data.length (kConnectPrefix.length - content.length))) := by
  unfold Agrees at agrees ⊢
  by_cases long : kConnectPrefix.length ≤ content.length
  · rw [List.take_append_of_le_length long, agrees, List.take_of_length_le long,
      List.take_of_length_le (by simp only [List.length_append]; omega)]
    simp [Nat.not_lt.mpr long]
  · have short : content.length < kConnectPrefix.length := by omega
    have read : content = kConnectPrefix.take content.length := by
      rw [← agrees, List.take_of_length_le (by omega)]
    have left : data.take (min data.length (kConnectPrefix.length - content.length)) =
        data.take (kConnectPrefix.length - content.length) :=
      List.take_eq_take_iff.mpr (by omega)
    have right : (kConnectPrefix.drop content.length).take
        (min data.length (kConnectPrefix.length - content.length)) =
        (kConnectPrefix.drop content.length).take data.length :=
      List.take_eq_take_iff.mpr (by simp only [List.length_drop]; omega)
    rw [List.take_append, List.take_of_length_le (by omega), List.length_append, List.take_add,
      ← read, List.append_cancel_left_eq, left, right]
    simp [short]

theorem endsWith_iff {req suffix : Bytes} :
    endsWith req suffix = true ↔
      suffix.length ≤ req.length ∧ req.drop (req.length - suffix.length) = suffix := by
  simp [endsWith]

/-- The first byte of the terminator. -/
theorem carriageReturn_at {req : Bytes} (ended : endsWith req terminator = true) :
    req[req.length - terminator.length]? = some carriageReturn := by
  have tail := (endsWith_iff.mp ended).2
  have first : (req.drop (req.length - terminator.length))[0]? = some carriageReturn := by
    rw [tail]
    rfl
  simpa using first

/-- A terminated request that starts like `kConnectPrefix` has all of it before the terminator. -/
theorem length_of_ended {req : Bytes} (agrees : Agrees req)
    (ended : endsWith req terminator = true) :
    kConnectPrefix.length + terminator.length ≤ req.length := by
  apply Decidable.byContradiction
  intro short
  have enough := (endsWith_iff.mp ended).1
  have inside : req.length - terminator.length < kConnectPrefix.length := by omega
  have first : (req.take kConnectPrefix.length)[req.length - terminator.length]? =
      some carriageReturn := by
    rw [List.getElem?_take_of_lt inside]
    exact carriageReturn_at ended
  rw [agrees] at first
  have member := List.mem_of_mem_take (List.mem_of_getElem? first)
  exact absurd member (by decide)

theorem hostPort_eq_some {req : Bytes} (long : kConnectPrefix.length ≤ req.length) :
    ∃ host_port, hostPort req = some host_port := by
  unfold hostPort substr
  simp only [Nat.not_lt.mpr long, ↓reduceIte]
  split <;> exact ⟨_, rfl⟩

theorem bytes_pass (capacity : ℕ) {content : Bytes} (data : Bytes) (agrees : Agrees content) :
    BytesPass capacity content data (pass capacity content (.bytes data)) := by
  simp only [pass]
  split
  · rename_i differs
    exact .mismatch fun whole => (agrees_append agrees).mp whole differs
  · rename_i same
    have whole := (agrees_append agrees).mpr same
    split
    · rename_i ended
      obtain ⟨host_port, host⟩ := hostPort_eq_some (Nat.le_of_add_right_le (length_of_ended whole ended))
      simp only [host]
      exact .ends whole ended host
    · rename_i unended
      have unended : endsWith (content ++ data) terminator = false := by simpa using unended
      split
      · rename_i empty
        simpa [empty] using (BytesPass.eof empty : BytesPass capacity content data _)
      · rename_i filled
        split
        · rename_i size
          exact .full whole unended filled size
        · rename_i size
          exact .goesOn whole unended filled size

/-- The bytes of consecutive results of `read()`, with the pauses between them left out. -/
def absorb (capacity : ℕ) : Bytes → List Bytes → Handler
  | content, [] => .listening content
  | content, chunk :: rest =>
    match pass capacity content (.bytes chunk) with
    | .goesOn content => absorb capacity content rest
    | .returns value content => .finished (value.getD []) content.length
    | .throws => .aborted

theorem absorb_append (content : Bytes) (front back : List Bytes) :
    absorb capacity content (front ++ back) =
      match absorb capacity content front with
      | .listening content => absorb capacity content back
      | handler => handler := by
  induction front generalizing content with
  | nil => rfl
  | cons chunk rest ih =>
      simp only [List.cons_append, absorb]
      split
      · exact ih _
      · rfl
      · rfl

/-- What is known about the handler after the chunks, when `content` was read before them. -/
inductive Absorbed (capacity : ℕ) (content whole : Bytes) : Handler → Prop
  | waits (agrees : Agrees whole) (unended : endsWith whole terminator = false)
      (room : whole.length < capacity) : Absorbed capacity content whole (.listening whole)
  | malformed (taken : ℕ) : Absorbed capacity content whole (.finished [] taken)
  | accepts {host_port : Bytes} {taken : ℕ} (after : content.length < taken)
      (inside : taken ≤ whole.length) (agrees : Agrees (whole.take taken))
      (ended : endsWith (whole.take taken) terminator = true)
      (host : hostPort (whole.take taken) = some host_port) :
      Absorbed capacity content whole (.finished host_port taken)

theorem absorbed {content : Bytes} {chunks : List Bytes} (agrees : Agrees content)
    (unended : endsWith content terminator = false) (room : content.length < capacity)
    (nonempty : ∀ chunk ∈ chunks, chunk ≠ []) (fits : (content ++ chunks.flatten).length ≤ capacity) :
    Absorbed capacity content (content ++ chunks.flatten) (absorb capacity content chunks) := by
  induction chunks generalizing content with
  | nil => simpa [absorb] using Absorbed.waits agrees unended room
  | cons chunk rest ih =>
      have filled : chunk ≠ [] := nonempty chunk (by simp)
      have grows : 0 < chunk.length := List.length_pos_iff.mpr filled
      have split : content ++ (chunk :: rest).flatten = (content ++ chunk) ++ rest.flatten := by
        simp
      have passed := bytes_pass capacity chunk agrees
      simp only [absorb]
      generalize pass capacity content (.bytes chunk) = result at passed
      cases passed with
      | mismatch => exact .malformed _
      | eof empty => exact absurd empty filled
      | full => exact .malformed _
      | @ends host_port agrees ended host =>
          have front : (content ++ (chunk :: rest).flatten).take (content ++ chunk).length =
              content ++ chunk := by
            rw [split, List.take_left]
          refine .accepts ?_ ?_ ?_ ?_ ?_
          · simp only [List.length_append]
            omega
          · rw [split]
            simp
          · rwa [front]
          · rwa [front]
          · rwa [front]
      | goesOn agrees unended _ size =>
          rw [split] at fits ⊢
          have below : (content ++ chunk).length ≤ capacity := by
            simp only [List.length_append] at fits ⊢
            omega
          have later := ih agrees unended (by omega) (fun c member => nonempty c (by simp [member])) fits
          dsimp only
          generalize absorb capacity (content ++ chunk) rest = handler at later
          cases later with
          | waits agrees unended room => exact .waits agrees unended room
          | malformed taken => exact .malformed taken
          | accepts after inside agrees ended host =>
              refine .accepts ?_ inside agrees ended host
              simp only [List.length_append] at after
              omega

theorem Agrees.take {req : Bytes} (agrees : Agrees req) (n : ℕ) : Agrees (req.take n) := by
  unfold Agrees at agrees ⊢
  rw [List.take_take, Nat.min_comm, ← List.take_take, agrees, List.take_take, List.length_take]

theorem absorbed_start {chunks : List Bytes} (positive : 0 < capacity)
    (nonempty : ∀ chunk ∈ chunks, chunk ≠ []) (fits : chunks.flatten.length ≤ capacity) :
    Absorbed capacity [] chunks.flatten (absorb capacity [] chunks) :=
  @absorbed _ [] _ rfl rfl positive nonempty fits

/-- When the bytes end with the first terminator, the handler gets to it however they are cut. -/
theorem absorb_complete {content : Bytes} {chunks : List Bytes} {host_port : Bytes}
    (agrees : Agrees content) (more : chunks ≠ []) (nonempty : ∀ chunk ∈ chunks, chunk ≠ [])
    (whole : Agrees (content ++ chunks.flatten))
    (ended : endsWith (content ++ chunks.flatten) terminator = true)
    (first : ∀ q, q < (content ++ chunks.flatten).length →
      endsWith ((content ++ chunks.flatten).take q) terminator = false)
    (fits : (content ++ chunks.flatten).length ≤ capacity)
    (host : hostPort (content ++ chunks.flatten) = some host_port) :
    absorb capacity content chunks =
      .finished host_port (content ++ chunks.flatten).length := by
  induction chunks generalizing content with
  | nil => exact absurd rfl more
  | cons chunk rest ih =>
      have filled : chunk ≠ [] := nonempty chunk (by simp)
      have split : content ++ (chunk :: rest).flatten = (content ++ chunk) ++ rest.flatten := by
        simp
      rw [split] at whole ended first fits host ⊢
      have front : Agrees (content ++ chunk) := by
        have := whole.take (content ++ chunk).length
        rwa [List.take_left] at this
      have passed := bytes_pass capacity chunk agrees
      simp only [absorb]
      generalize pass capacity content (.bytes chunk) = result at passed
      by_cases last : rest = []
      · subst last
        simp only [List.flatten_nil, List.append_nil] at *
        cases passed with
        | mismatch differs => exact absurd front differs
        | eof empty => exact absurd empty filled
        | ends _ _ host' => simp [Option.some.inj (host'.symm.trans host)]
        | full _ unended => simp [ended] at unended
        | goesOn _ unended => simp [ended] at unended
      · have shorter : (content ++ chunk).length < ((content ++ chunk) ++ rest.flatten).length := by
          obtain ⟨next, later, rfl⟩ := List.exists_cons_of_ne_nil last
          have := List.length_pos_iff.mpr (nonempty next (by simp))
          simp only [List.flatten_cons, List.length_append]
          omega
        have unended : endsWith (content ++ chunk) terminator = false := by
          have := first _ shorter
          rwa [List.take_left] at this
        cases passed with
        | mismatch differs => exact absurd front differs
        | eof empty => exact absurd empty filled
        | ends _ ended => simp [unended] at ended
        | full _ _ _ size => omega
        | goesOn =>
            exact ih front last (fun c member => nonempty c (by simp [member])) whole ended first
              fits host

/-- How `OnEvent` goes on from what `Read` returns. -/
def handlerOf : Read → Handler
  | .pending content => .listening content
  | .returned none content _ => .listening content
  | .returned (some host_port) content _ => .finished host_port content.length
  | .aborted => .aborted

theorem onEvent_in {content : Bytes} (results : List ReadResult)
    (room : content.length < capacity) :
    (onEvent capacity content EPOLLIN results).1 = handlerOf (readLoop capacity content results) := by
  have noError : hasBits EPOLLIN EPOLLERR = false := by decide
  have readable : hasBits EPOLLIN EPOLLIN = true := by decide
  simp only [onEvent, noError, readable, Bool.false_eq_true, ↓reduceIte, read, room]
  generalize readLoop capacity content results = result
  cases result with
  | pending => rfl
  | returned value content rest => cases value <;> rfl
  | aborted => rfl

theorem pass_bytes_value {content data content' : Bytes} {value : Option Bytes}
    (passed : pass capacity content (.bytes data) = .returns value content') :
    value = some (value.getD []) := by
  simp only [pass] at passed
  split at passed
  · cases passed
    rfl
  · split at passed
    · split at passed
      · cases passed
        rfl
      · cases passed
    · split at passed
      · cases passed
        rfl
      · split at passed
        · cases passed
          rfl
        · cases passed

theorem readLoop_absorb (content : Bytes) (chunks : List Bytes) (after : List ReadResult) :
    handlerOf (readLoop capacity content (chunks.map .bytes ++ after)) =
      match absorb capacity content chunks with
      | .listening content => handlerOf (readLoop capacity content after)
      | handler => handler := by
  induction chunks generalizing content with
  | nil => rfl
  | cons chunk rest ih =>
      simp only [List.map_cons, List.cons_append, readLoop, absorb]
      cases passed : pass capacity content (.bytes chunk) with
      | goesOn content' => exact ih content'
      | returns value content' =>
          rw [pass_bytes_value passed]
          rfl
      | throws => rfl

@[simp] theorem serve_nil (handler : Handler) : serve capacity handler [] = handler := by
  cases handler <;> rfl

theorem serve_append (handler : Handler) (front back : List (List ReadResult)) :
    serve capacity handler (front ++ back) = serve capacity (serve capacity handler front) back := by
  induction front generalizing handler with
  | nil => cases handler <;> rfl
  | cons results calls ih =>
      cases handler with
      | listening content => exact ih _
      | finished | aborted => cases back <;> rfl

/-- Pauses between the bytes make no difference. -/
theorem serve_absorb {content : Bytes} (calls : List (List Bytes)) (agrees : Agrees content)
    (unended : endsWith content terminator = false) (room : content.length < capacity)
    (nonempty : ∀ chunk ∈ calls.flatten, chunk ≠ [])
    (fits : (content ++ calls.flatten.flatten).length ≤ capacity) :
    serve capacity (.listening content)
        (calls.map fun chunks => chunks.map .bytes ++ [.again]) =
      absorb capacity content calls.flatten := by
  induction calls generalizing content with
  | nil => rfl
  | cons chunks later ih =>
      simp only [List.map_cons, serve, List.flatten_cons]
      rw [onEvent_in _ room, readLoop_absorb, absorb_append]
      have below : (content ++ chunks.flatten).length ≤ capacity := by
        simp only [List.flatten_cons, List.flatten_append, List.length_append] at fits ⊢
        omega
      have known := absorbed agrees unended room (fun c member => nonempty c (by simp [member])) below
      generalize absorb capacity content chunks = handler at known
      cases known with
      | waits agrees unended room =>
          refine ih agrees unended room (fun c member => nonempty c ?_) ?_
          · exact List.mem_append_right _ member
          · simpa using fits
      | malformed => cases later <;> rfl
      | accepts => cases later <;> rfl

/-- The end of the stream is a malformed request, whichever way it comes. -/
theorem Way.outcome_eq (way : Way capacity s) (positive : 0 < capacity) (ending : Ending) :
    way.outcome ending = onTimeout (absorb capacity [] (way.calls.flatten ++ way.last)) := by
  have fits : (way.calls.flatten ++ way.last).flatten.length ≤ capacity := by
    rw [way.delivers]
    exact List.length_take_le _ _
  have start : serve capacity (.listening [])
      (way.calls.map fun chunks => chunks.map .bytes ++ [.again]) =
      absorb capacity [] way.calls.flatten := by
    refine serve_absorb way.calls rfl rfl positive (fun c member => way.nonempty c ?_) ?_
    · exact List.mem_append_left _ member
    · simp only [List.flatten_append, List.length_append, List.nil_append] at fits ⊢
      omega
  have known : Absorbed capacity [] way.calls.flatten.flatten
      (absorb capacity [] way.calls.flatten) := by
    refine absorbed_start positive (fun c member => way.nonempty c ?_) ?_
    · exact List.mem_append_left _ member
    · simp only [List.flatten_append, List.length_append] at fits
      omega
  have ended : ∀ e, serve capacity (.listening []) (way.calls.map
      (fun chunks => chunks.map .bytes ++ [.again]) ++ [way.last.map .bytes ++ [e]]) =
      match absorb capacity [] (way.calls.flatten ++ way.last) with
      | .listening content => handlerOf (readLoop capacity content [e])
      | handler => handler := by
    intro e
    rw [serve_append, start, absorb_append]
    generalize absorb capacity [] way.calls.flatten = handler at known
    cases known with
    | waits agrees unended room =>
        simp only [serve, serve_nil]
        rw [onEvent_in _ room, readLoop_absorb]
    | malformed => rfl
    | accepts => rfl
  have whole := absorbed_start positive way.nonempty fits
  cases ending with
  | eof =>
      rw [Way.outcome, Way.results, ended]
      generalize absorb capacity [] (way.calls.flatten ++ way.last) = handler at whole
      cases whole with
      | waits agrees unended room =>
          have passed := bytes_pass capacity [] agrees
          simp only [readLoop]
          generalize pass capacity _ (.bytes []) = result at passed
          cases passed with
          | mismatch => rfl
          | ends _ ended =>
              rw [List.append_nil, unended] at ended
              cases ended
          | eof => rfl
          | full _ _ filled => exact absurd rfl filled
          | goesOn _ _ filled => exact absurd rfl filled
      | malformed => rfl
      | accepts => rfl
  | silence =>
      rw [Way.outcome, Way.results, ended]
      generalize absorb capacity [] (way.calls.flatten ++ way.last) = handler at whole
      cases whole <;> rfl

/-- The host stops at the terminator, if not before. -/
theorem stop_of_ended {req : Bytes} (agrees : Agrees req)
    (ended : endsWith req terminator = true) :
    ∃ i, (req.drop kConnectPrefix.length).findIdx? (· ∈ [space, carriageReturn]) = some i ∧
      i < (req.drop kConnectPrefix.length).length := by
  have long := length_of_ended agrees ended
  have stop : ∃ i, (req.drop kConnectPrefix.length).findIdx? (· ∈ [space, carriageReturn]) =
      some i := by
    apply Option.isSome_iff_exists.mp
    rw [List.findIdx?_isSome, List.any_eq_true]
    refine ⟨carriageReturn, ?_, by decide⟩
    refine List.mem_of_getElem? (i := req.length - terminator.length - kConnectPrefix.length) ?_
    rw [List.getElem?_drop, Nat.add_sub_cancel' (by omega)]
    exact carriageReturn_at ended
  obtain ⟨i, stop⟩ := stop
  exact ⟨i, stop, (List.findIdx?_eq_some_iff_findIdx_eq.mp stop).1⟩

/-- Bytes after the terminator do not change the host. -/
theorem hostPort_append {req : Bytes} (agrees : Agrees req)
    (ended : endsWith req terminator = true) (more : Bytes) :
    hostPort (req ++ more) = hostPort req := by
  have long := length_of_ended agrees ended
  have before : kConnectPrefix.length ≤ req.length := by omega
  obtain ⟨i, stop, inside⟩ := stop_of_ended agrees ended
  have shorter : ¬ req.length < kConnectPrefix.length := by omega
  have shorter' : ¬ (req ++ more).length < kConnectPrefix.length := by
    simp only [List.length_append]
    omega
  have stop' : ((req ++ more).drop kConnectPrefix.length).findIdx?
      (· ∈ [space, carriageReturn]) = some i := by
    rw [List.drop_append_of_le_length before, List.findIdx?_append, stop]
    rfl
  simp only [hostPort, substr, shorter, shorter', ↓reduceIte, findFirstOf, stop, stop',
    Option.map_some, Nat.add_sub_cancel_left, Option.some.injEq]
  rw [List.drop_append_of_le_length before, List.take_append_of_le_length (by omega)]

/-- The first terminator comes no later than any other. -/
theorem endOfRequest_le {b : ℕ} (inside : b ≤ s.length)
    (ended : endsWith (s.take b) terminator = true) :
    ∃ p, p ≤ b ∧ endOfRequest s = some p ∧ endsWith (s.take p) terminator = true ∧
      ∀ q < p, endsWith (s.take q) terminator = false := by
  cases found : endOfRequest s with
  | none =>
      have none := List.find?_eq_none.mp found b (List.mem_range.mpr (by omega))
      exact absurd ended none
  | some p =>
      obtain ⟨ended', _, first⟩ := List.find?_range_eq_some.mp found
      refine ⟨p, ?_, rfl, ended', fun q below => by simpa using first q below⟩
      apply Nat.le_of_not_lt
      intro later
      have := first b later
      simp [ended] at this

theorem prefix_of_agrees {p : ℕ} (agrees : Agrees (s.take p))
    (ended : endsWith (s.take p) terminator = true) : kConnectPrefix <+: s := by
  have long := length_of_ended agrees ended
  have same : (s.take p).take kConnectPrefix.length = kConnectPrefix := by
    rw [agrees, List.take_of_length_le (by omega)]
  rw [← same]
  exact (List.take_prefix _ _).trans (List.take_prefix _ _)

theorem agrees_of_prefix (starts : kConnectPrefix <+: s) (p : ℕ) : Agrees (s.take p) := by
  obtain ⟨rest, rfl⟩ := starts
  have whole : Agrees (kConnectPrefix ++ rest) := by
    unfold Agrees
    rw [List.take_left, List.take_of_length_le (by simp)]
  exact whole.take p

/-- What the callback is given, on every way. -/
theorem Way.outcome_cases (way : Way capacity s) (positive : 0 < capacity) (ending : Ending) :
    ∃ host_port taken, way.outcome ending = .finished host_port taken ∧
      (host_port ≠ [] → taken ≤ capacity ∧ taken ≤ s.length ∧ Agrees (s.take taken) ∧
        endsWith (s.take taken) terminator = true ∧
        hostPort (s.take taken) = some host_port) := by
  have fits : (way.calls.flatten ++ way.last).flatten.length ≤ capacity := by
    rw [way.delivers]
    exact List.length_take_le _ _
  have known := absorbed_start positive way.nonempty fits
  rw [way.outcome_eq positive ending]
  rw [way.delivers] at known
  generalize absorb capacity [] (way.calls.flatten ++ way.last) = handler at known
  cases known with
  | waits => exact ⟨[], _, rfl, fun more => absurd rfl more⟩
  | malformed taken => exact ⟨[], taken, rfl, fun more => absurd rfl more⟩
  | @accepts host_port taken after inside agrees ended host =>
      rw [List.length_take] at inside
      rw [List.take_take, Nat.min_eq_left (by omega)] at agrees ended host
      exact ⟨host_port, taken, rfl, fun _ => ⟨by omega, by omega, agrees, ended, host⟩⟩

/-- A way on which the stream, or the room for it, ends with the first terminator. -/
theorem Way.outcome_complete (way : Way capacity s) (positive : 0 < capacity) (ending : Ending)
    {p : ℕ} {host_port : Bytes} (size : p = min capacity s.length) (agrees : Agrees (s.take p))
    (ended : endsWith (s.take p) terminator = true)
    (first : ∀ q < p, endsWith (s.take q) terminator = false)
    (host : hostPort (s.take p) = some host_port) :
    way.outcome ending = .finished host_port p := by
  have all : s.take capacity = s.take p := List.take_eq_take_iff.mpr (by omega)
  have length : (s.take p).length = p := by
    rw [List.length_take]
    omega
  have whole : [] ++ (way.calls.flatten ++ way.last).flatten = s.take p := by
    rw [List.nil_append, way.delivers, all]
  have long := length_of_ended agrees ended
  have more : way.calls.flatten ++ way.last ≠ [] := by
    intro none
    rw [none] at whole
    simp [← whole] at long
    exact absurd long (by decide)
  have done : absorb capacity [] (way.calls.flatten ++ way.last) =
      .finished host_port ([] ++ (way.calls.flatten ++ way.last).flatten).length := by
    apply @absorb_complete capacity [] _ _ rfl more way.nonempty
    · rwa [whole]
    · rwa [whole]
    · intro q below
      rw [whole] at below ⊢
      rw [List.take_take, Nat.min_eq_left (by omega)]
      exact first q (by omega)
    · rw [whole]
      omega
    · rwa [whole]
  rw [way.outcome_eq positive ending, done, whole, length]
  rfl

/-- A way without pauses. -/
def Way.unpaused (chunks : List Bytes) (nonempty : ∀ chunk ∈ chunks, chunk ≠ [])
    (delivers : chunks.flatten = s.take capacity) : Way capacity s where
  calls := []
  last := chunks
  nonempty := by simpa using nonempty
  delivers := by simpa using delivers

/-- A way that stops at the terminator. -/
theorem Way.stopping {p : ℕ} {host_port : Bytes} (positive : 0 < capacity) (ending : Ending)
    (agrees : Agrees (s.take p)) (ended : endsWith (s.take p) terminator = true)
    (first : ∀ q < p, endsWith (s.take q) terminator = false)
    (host : hostPort (s.take p) = some host_port) (room : p < capacity) (more : p < s.length) :
    ∃ way : Way capacity s, way.outcome ending = .finished host_port p := by
  have length : (s.take p).length = p := by
    rw [List.length_take]
    omega
  have filled : s.take p ≠ [] := by
    have long := length_of_ended agrees ended
    exact List.ne_nil_of_length_pos (Nat.lt_of_lt_of_le (by decide) long)
  have rest : (s.take capacity).drop p ≠ [] := by
    apply List.ne_nil_of_length_pos
    simp only [List.length_drop, List.length_take]
    omega
  have delivers : [s.take p, (s.take capacity).drop p].flatten = s.take capacity := by
    have halves := List.take_append_drop p (s.take capacity)
    rw [List.take_take, Nat.min_eq_left (by omega)] at halves
    simpa using halves
  refine ⟨Way.unpaused _ (by simp [filled, rest]) delivers, ?_⟩
  have done : absorb capacity [] [s.take p] = .finished host_port p := by
    have complete : absorb capacity [] [s.take p] =
        .finished host_port ([] ++ [s.take p].flatten).length := by
      apply @absorb_complete capacity [] _ _ rfl (by simp) (by simpa using filled)
      · simpa using agrees
      · simpa using ended
      · intro q below
        simp only [List.flatten_cons, List.flatten_nil, List.append_nil, List.nil_append] at below ⊢
        rw [List.take_take, Nat.min_eq_left (by omega)]
        exact first q (by omega)
      · simp only [List.flatten_cons, List.flatten_nil, List.append_nil, List.nil_append]
        omega
      · simpa using host
    simpa [length] using complete
  rw [Way.outcome_eq _ positive]
  change onTimeout (absorb capacity [] ([s.take p] ++ [(s.take capacity).drop p])) = _
  rw [absorb_append, done]
  rfl

/-- A way that reads all there is room for at once. -/
theorem Way.overrunning {p : ℕ} (positive : 0 < capacity) (ending : Ending)
    (room : p < capacity) (more : p < s.length) :
    ∃ way : Way capacity s, ∀ host_port, host_port ≠ [] →
      way.outcome ending ≠ .finished host_port p := by
  have length : p < (s.take capacity).length := by
    rw [List.length_take]
    omega
  have filled : s.take capacity ≠ [] := List.ne_nil_of_length_pos (by omega)
  refine ⟨Way.unpaused [s.take capacity] (by simpa using filled) (by simp), ?_⟩
  intro host_port named outcome
  rw [Way.outcome_eq _ positive] at outcome
  change onTimeout (absorb capacity [] [s.take capacity]) = _ at outcome
  have passed : BytesPass capacity [] (s.take capacity) _ := bytes_pass capacity _ rfl
  simp only [absorb] at outcome
  generalize pass capacity [] (.bytes (s.take capacity)) = result at passed outcome
  cases passed with
  | mismatch | eof | full | goesOn =>
      simp only [onTimeout, Option.getD_some, Handler.finished.injEq] at outcome
      exact named outcome.1.symm
  | ends =>
      simp only [onTimeout, List.nil_append, Handler.finished.injEq] at outcome
      omega

theorem Overrun.cutDependent (positive : 0 < capacity) (ending : Ending)
    (overrun : Overrun capacity s) : ¬ CutIndependent capacity s ending := by
  intro independent
  obtain ⟨p, found, starts, host, room, more⟩ := overrun
  obtain ⟨ended, _, first⟩ := List.find?_range_eq_some.mp found
  have agrees := agrees_of_prefix starts p
  obtain ⟨host_port, same⟩ := hostPort_eq_some (Nat.le_of_add_right_le (length_of_ended agrees ended))
  have named : host_port ≠ [] := fun empty => host (by rw [same, empty])
  obtain ⟨stopping, stopped⟩ := Way.stopping positive ending agrees ended
    (fun q below => by simpa using first q below) same room more
  obtain ⟨overrunning, overran⟩ := Way.overrunning positive ending room more
  obtain ⟨host_port', taken, taken', outcome, outcome', equal⟩ := independent stopping overrunning
  rw [stopped] at outcome
  cases outcome
  rw [(equal named).1] at overran
  exact overran host_port named outcome'

theorem cutIndependent_of_not_overrun (positive : 0 < capacity) (ending : Ending)
    (fine : ¬ Overrun capacity s) : CutIndependent capacity s ending := by
  -- A way that yields a host shows where the terminator is, and then every way gets there.
  have settled : ∀ (way : Way capacity s) (host_port : Bytes) (taken : ℕ),
      way.outcome ending = .finished host_port taken → host_port ≠ [] →
      ∀ other : Way capacity s, other.outcome ending = .finished host_port taken ∧
        endOfRequest s = some taken := by
    intro way host_port taken outcome named other
    obtain ⟨host_port', taken', outcome', known⟩ := way.outcome_cases positive ending
    rw [outcome] at outcome'
    cases outcome'
    obtain ⟨room, inside, agrees, ended, host⟩ := known named
    obtain ⟨p, before, found, ended', first⟩ := endOfRequest_le inside ended
    have front : s.take p = (s.take taken).take p := by
      rw [List.take_take, Nat.min_eq_left before]
    have agrees' : Agrees (s.take p) := front ▸ agrees.take p
    have host' : hostPort (s.take p) = some host_port := by
      have whole : s.take taken = s.take p ++ (s.drop p).take (taken - p) := by
        rw [← List.take_add, Nat.add_sub_cancel' before]
      rw [← host, whole]
      exact (hostPort_append agrees' ended' _).symm
    have last : p = min capacity s.length := by
      have : ¬ (p < capacity ∧ p < s.length) := by
        rintro ⟨room, more⟩
        exact fine ⟨p, found, prefix_of_agrees agrees' ended', by simpa [host'] using named, room, more⟩
      omega
    have reached := way.outcome_complete positive ending last agrees' ended' first host'
    rw [outcome] at reached
    cases reached
    exact ⟨other.outcome_complete positive ending last agrees' ended' first host', found⟩
  intro first second
  obtain ⟨host_port, taken, outcome, _⟩ := first.outcome_cases positive ending
  obtain ⟨host_port', taken', outcome', _⟩ := second.outcome_cases positive ending
  by_cases named : host_port = []
  · by_cases named' : host_port' = []
    · subst named named'
      exact ⟨[], taken, taken', outcome, outcome', fun more => absurd rfl more⟩
    · obtain ⟨same, _⟩ := settled second host_port' taken' outcome' named' first
      rw [outcome] at same
      cases same
      exact absurd named named'
  · obtain ⟨same, found⟩ := settled first host_port taken outcome named second
    exact ⟨host_port, taken, taken, outcome, same, fun _ => ⟨rfl, found⟩⟩

/-- Parsing depends on how the stream is cut exactly when the terminator can be read together
with bytes that come after it. -/
theorem cutIndependent_iff (positive : 0 < capacity) (s : Bytes) (ending : Ending) :
    CutIndependent capacity s ending ↔ ¬ Overrun capacity s :=
  ⟨fun independent overrun => overrun.cutDependent positive ending independent,
    cutIndependent_of_not_overrun positive ending⟩

/-- `"CONNECT a:1\r\n\r\n"`, and the first byte for the server right behind it. -/
def earlyByte : Bytes :=
  kConnectPrefix ++ [0x61, 0x3A, 0x31, 0x0D, 0x0A, 0x0D, 0x0A] ++ [0x58]

/-- Sent in two pieces the request is accepted, sent in one it is malformed. -/
theorem earlyByte_cutDependent : ¬ CutIndependent 1024 earlyByte .eof := by
  intro independent
  let apart : Way 1024 earlyByte := Way.unpaused [earlyByte.take 15, [0x58]] (by decide) rfl
  let together : Way 1024 earlyByte := Way.unpaused [earlyByte] (by decide) rfl
  have accepted : apart.outcome .eof = .finished [0x61, 0x3A, 0x31] 15 := rfl
  have refused : together.outcome .eof = .finished [] 16 := rfl
  obtain ⟨host_port, taken, taken', outcome, outcome', _⟩ := independent apart together
  rw [accepted] at outcome
  rw [refused] at outcome'
  cases outcome
  cases outcome'

/-- The request alone. -/
def requestAlone : Bytes := earlyByte.take 15

/-- The request in pieces of one byte. -/
def bytewise : Way 1024 requestAlone := Way.unpaused (requestAlone.map ([·])) (by decide) rfl

/-- However the request is cut, it is accepted as in pieces of one byte. -/
theorem cutIndependent_iff_request :
    bytewise.outcome .eof = .finished [0x61, 0x3A, 0x31] 15 ∧
    ∀ way : Way 1024 requestAlone, way.outcome .eof = .finished [0x61, 0x3A, 0x31] 15 := by
  have accepted : bytewise.outcome .eof = .finished [0x61, 0x3A, 0x31] 15 := rfl
  have alone : ¬ Overrun 1024 requestAlone := by
    rintro ⟨p, found, _, _, _, more⟩
    have last : endOfRequest requestAlone = some 15 := by decide
    cases last.symm.trans found
    exact absurd more (by decide)
  refine ⟨accepted, fun way => ?_⟩
  obtain ⟨host_port, taken, taken', outcome, outcome', equal⟩ :=
    (cutIndependent_iff (by decide) requestAlone .eof).mpr alone bytewise way
  rw [accepted] at outcome
  cases outcome
  rw [outcome', ← (equal (by decide)).1]

end Hcproxy.Parser
