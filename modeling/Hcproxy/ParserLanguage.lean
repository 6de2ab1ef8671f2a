import Mathlib.Data.List.Induction
import Hcproxy.ParserCuts

set_option autoImplicit false

namespace Hcproxy.Parser

/-- The results of `read()`, call by call of `Read`: `EAGAIN` ends a call. -/
def callsOf : List ReadResult → List (List ReadResult)
  | [] => [[]]
  | .again :: rest => [.again] :: callsOf rest
  | result :: rest =>
    match callsOf rest with
    | [] => [[result]]
    | call :: calls => (result :: call) :: calls

/-- The handler after these results of `read()`, over as many calls as it takes. -/
def served (M : ℕ) (results : List ReadResult) : Handler :=
  serve M (.listening []) (callsOf results)

/-- The chunks of these results, put together. -/
def received (results : List ReadResult) : Bytes :=
  results.flatMap fun
    | .bytes data => data
    | .again | .error => []

/-- While there is room, `read()` puts no more than that into it. -/
def Fits (M : ℕ) (content : Bytes) (results : List ReadResult) : Prop :=
  ∀ front data back, results = front ++ .bytes data :: back →
    (content ++ received front).length < M → (content ++ received front ++ data).length ≤ M

/-- `EOF` or an error. -/
def ReadResult.Ends (result : ReadResult) : Prop :=
  result = .bytes [] ∨ result = .error

/-- `h` is the longest string of bytes other than `' '` and `'\r'` that follows
`kConnectPrefix` in `req`. -/
structure IsHost (req h : Bytes) : Prop where
  follows : kConnectPrefix ++ h <+: req
  clean : ∀ byte ∈ h, byte ≠ space ∧ byte ≠ carriageReturn
  longest : ∀ h', kConnectPrefix ++ h' <+: req →
    (∀ byte ∈ h', byte ≠ space ∧ byte ≠ carriageReturn) → h'.length ≤ h.length

/-- These results are a request for `h`: the terminator ends the last chunk and none before. -/
structure IsRequest (M : ℕ) (request : List ReadResult) (h : Bytes) : Prop where
  ended : endsWith (received request) terminator = true
  first : ∀ front, front <+: request → front ≠ request →
    endsWith (received front) terminator = false
  clean : ∀ result ∈ request, ¬ result.Ends
  fits : (received request).length ≤ M
  room : ∀ front, front <+: request → front ≠ request → (received front).length ≠ M
  starts : kConnectPrefix <+: received request
  host : IsHost (received request) h

def Accepts (M : ℕ) (results : List ReadResult) (h : Bytes) : Prop :=
  ∃ request, request <+: results ∧ IsRequest M request h

/-- None of these results is decisive. -/
structure Undecided (M : ℕ) (results : List ReadResult) : Prop where
  agrees : Agrees (received results)
  clean : ∀ result ∈ results, ¬ result.Ends
  unended : ∀ front, front <+: results → endsWith (received front) terminator = false
  room : ∀ front, front <+: results → (received front).length ≠ M

/-- A result of `read()` which shows that the request is malformed, after `content`. -/
inductive Refuses (M : ℕ) (content : Bytes) : ReadResult → Prop
  | ends {result : ReadResult} (ends : result.Ends) : Refuses M content result
  | mismatch {data : Bytes} (differs : ¬ Agrees (content ++ data)) :
      Refuses M content (.bytes data)
  | noHost {data : Bytes} (ended : endsWith (content ++ data) terminator = true)
      (host : IsHost (content ++ data) []) : Refuses M content (.bytes data)
  | full {data : Bytes} (unended : endsWith (content ++ data) terminator = false)
      (size : (content ++ data).length = M) : Refuses M content (.bytes data)

/-- The first decisive result refuses the request. -/
def Malformed (M : ℕ) (results : List ReadResult) : Prop :=
  ∃ front result, front ++ [result] <+: results ∧ Undecided M front ∧
    Refuses M (received front) result

/-- The indices that a pass over `result` uses: where it writes, up to where it compares the
prefix, and where the host starts and stops. -/
structure InRange (M : ℕ) (content : Bytes) (result : ReadResult) : Prop where
  room : content.length < M
  written : ∀ data, result = .bytes data → content.length + data.length ≤ M
  compared : ∀ data, result = .bytes data → content.length < kConnectPrefix.length →
    content.length + min data.length (kConnectPrefix.length - content.length) ≤
      min kConnectPrefix.length (content.length + data.length)
  found : ∀ data, result = .bytes data → Agrees (content ++ data) →
    endsWith (content ++ data) terminator = true →
    kConnectPrefix.length ≤ (content ++ data).length ∧
    ∃ stop, findFirstOf (content ++ data) [space, carriageReturn] kConnectPrefix.length =
      some stop ∧ kConnectPrefix.length ≤ stop ∧ stop < (content ++ data).length

section Host

/-- `find_first_of` finds the first byte of the terminator, if nothing before it. -/
theorem findFirstOf_of_ended {req : Bytes} (agrees : Agrees req)
    (ended : endsWith req terminator = true) :
    ∃ stop, findFirstOf req [space, carriageReturn] kConnectPrefix.length = some stop ∧
      kConnectPrefix.length ≤ stop ∧ stop < req.length := by
  obtain ⟨i, stops, inside⟩ := stop_of_ended agrees ended
  rw [List.length_drop] at inside
  refine ⟨kConnectPrefix.length + i, ?_, Nat.le_add_right _ _, by omega⟩
  rw [findFirstOf, stops]
  rfl

/-- What may stand in a host. -/
def hostByte (byte : UInt8) : Bool := decide (byte ∉ [space, carriageReturn])

theorem hostByte_iff {byte : UInt8} :
    hostByte byte = true ↔ byte ≠ space ∧ byte ≠ carriageReturn := by
  simp [hostByte]

theorem hostPort_eq_takeWhile {req : Bytes} (agrees : Agrees req)
    (ended : endsWith req terminator = true) :
    hostPort req = some ((req.drop kConnectPrefix.length).takeWhile hostByte) := by
  have long := length_of_ended agrees ended
  obtain ⟨stop, found, after, _⟩ := findFirstOf_of_ended agrees ended
  have found' := found
  rw [findFirstOf, Option.map_eq_some_iff] at found'
  obtain ⟨i, index, rfl⟩ := found'
  have first := (List.findIdx?_eq_some_iff_findIdx_eq.mp index).2
  have stops : (fun byte => !hostByte byte) = fun byte => decide (byte ∈ [space, carriageReturn]) := by
    funext byte
    simp [hostByte]
  have short : ¬ req.length < kConnectPrefix.length := by omega
  simp only [hostPort, substr, short, ↓reduceIte, found, Option.map_some, Nat.add_sub_cancel_left]
  rw [List.takeWhile_eq_take_findIdx_not, stops, first]

theorem isHost_iff {req h : Bytes} (starts : kConnectPrefix <+: req) :
    IsHost req h ↔ h = (req.drop kConnectPrefix.length).takeWhile hostByte := by
  obtain ⟨rest, rfl⟩ := starts
  have whole : ∀ h', (∀ byte ∈ h', byte ≠ space ∧ byte ≠ carriageReturn) →
      kConnectPrefix ++ h' <+: kConnectPrefix ++ rest →
      ∃ more, rest.takeWhile hostByte = h' ++ more := by
    intro h' clean follows
    obtain ⟨back, rfl⟩ := (List.prefix_append_right_inj _).mp follows
    exact ⟨_, List.takeWhile_append_of_pos fun byte member => hostByte_iff.mpr (clean byte member)⟩
  have clean : ∀ byte ∈ rest.takeWhile hostByte, byte ≠ space ∧ byte ≠ carriageReturn :=
    fun byte member => hostByte_iff.mp (List.all_eq_true.mp List.all_takeWhile byte member)
  have follows : kConnectPrefix ++ rest.takeWhile hostByte <+: kConnectPrefix ++ rest :=
    (List.prefix_append_right_inj _).mpr (List.takeWhile_prefix _)
  rw [List.drop_left]
  constructor
  · intro host
    obtain ⟨more, split⟩ := whole h host.clean host.follows
    have size := host.longest _ follows clean
    rw [split, List.length_append] at size
    have none : more = [] := List.length_eq_zero_iff.mp (by omega)
    rw [split, none, List.append_nil]
  · rintro rfl
    refine ⟨follows, clean, fun h' follows' clean' => ?_⟩
    obtain ⟨more, split⟩ := whole h' clean' follows'
    rw [split, List.length_append]
    omega

end Host

section Received

@[simp] theorem received_nil : received [] = [] := rfl

theorem received_append (front back : List ReadResult) :
    received (front ++ back) = received front ++ received back := by
  simp [received]

theorem received_bytes (front : List ReadResult) (data : Bytes) :
    received (front ++ [.bytes data]) = received front ++ data := by
  simp [received]

theorem received_again (front : List ReadResult) :
    received (front ++ [.again]) = received front := by
  simp [received]

theorem received_part {front results : List ReadResult} (before : front <+: results) :
    received front <+: received results := by
  obtain ⟨back, rfl⟩ := before
  exact ⟨received back, (received_append _ _).symm⟩

theorem Agrees.of_part {front req : Bytes} (agrees : Agrees req) (before : front <+: req) :
    Agrees front := by
  rw [List.prefix_iff_eq_take.mp before]
  exact agrees.take _

theorem agrees_of_starts {req : Bytes} (starts : kConnectPrefix <+: req) : Agrees req := by
  have whole := agrees_of_prefix starts req.length
  rwa [List.take_length] at whole

theorem Fits.of_append {M : ℕ} {content : Bytes} {front back : List ReadResult}
    (fits : Fits M content (front ++ back)) : Fits M content front := by
  intro before data after split room
  refine fits before data (after ++ back) ?_ room
  rw [split, List.append_assoc, List.cons_append]

theorem Fits.tail {M : ℕ} {content data : Bytes} {rest : List ReadResult}
    (fits : Fits M content (.bytes data :: rest)) : Fits M (content ++ data) rest := by
  intro front more back split room
  have whole := fits (.bytes data :: front) more back (by rw [split, List.cons_append])
  simp only [received, List.flatMap_cons, ← List.append_assoc] at whole room ⊢
  exact whole room

theorem Fits.append {M : ℕ} {content : Bytes} {front back : List ReadResult}
    (before : Fits M content front) (behind : Fits M (content ++ received front) back) :
    Fits M content (front ++ back) := by
  intro part data rest same room
  rcases List.append_eq_append_iff.mp same with ⟨more, rfl, rfl⟩ | ⟨more, rfl, rest'⟩
  · rw [received_append, ← List.append_assoc] at room ⊢
    exact behind more data rest rfl room
  · cases more with
    | nil =>
        rw [List.nil_append] at rest'
        subst rest'
        rw [List.append_nil] at behind
        have first := behind [] data rest rfl
        rw [show received [] = [] from rfl, List.append_nil] at first
        exact first room
    | cons result more =>
        obtain ⟨rfl, _⟩ := List.cons.inj rest'
        exact before part data more rfl room

theorem fits_of_length {M : ℕ} {content : Bytes} {results : List ReadResult}
    (size : (content ++ received results).length ≤ M) : Fits M content results := by
  rintro front data back rfl _
  have whole : received (front ++ .bytes data :: back) = received front ++ data ++ received back := by
    simp [received]
  rw [whole] at size
  simp only [List.length_append] at size ⊢
  omega

end Received

section Runs

/-- The handler after one more result of `read()`. -/
def Handler.takes (M : ℕ) : Handler → ReadResult → Handler
  | .listening content, result =>
    match pass M content result with
    | .goesOn content => .listening content
    | .returns none content => .listening content
    | .returns (some host_port) content => .finished host_port content.length
    | .throws => .aborted
  | handler, _ => handler

variable {M : ℕ}

theorem foldl_finished (results : List ReadResult) (h : Bytes) (taken : ℕ) :
    results.foldl (Handler.takes M) (.finished h taken) = .finished h taken := by
  induction results with
  | nil => rfl
  | cons result rest ih => exact ih

theorem foldl_aborted (results : List ReadResult) :
    results.foldl (Handler.takes M) .aborted = .aborted := by
  induction results with
  | nil => rfl
  | cons result rest ih => exact ih

theorem serve_finished (calls : List (List ReadResult)) (h : Bytes) (taken : ℕ) :
    serve M (.finished h taken) calls = .finished h taken := by
  cases calls <;> rfl

theorem serve_aborted (calls : List (List ReadResult)) : serve M .aborted calls = .aborted := by
  cases calls <;> rfl

theorem callsOf_cons (results : List ReadResult) : ∃ call calls, callsOf results = call :: calls := by
  cases results with
  | nil => exact ⟨_, _, rfl⟩
  | cons result rest =>
      cases result with
      | again => exact ⟨_, _, rfl⟩
      | bytes | error =>
          simp only [callsOf]
          split <;> exact ⟨_, _, rfl⟩

theorem callsOf_join {result : ReadResult} {rest call : List ReadResult}
    {calls : List (List ReadResult)} (more : result ≠ .again) (split : callsOf rest = call :: calls) :
    callsOf (result :: rest) = (result :: call) :: calls := by
  cases result with
  | again => exact absurd rfl more
  | bytes | error => simp only [callsOf, split]

theorem pass_goesOn {content content' data : Bytes}
    (fits : content.length + data.length ≤ M)
    (passed : pass M content (.bytes data) = .goesOn content') :
    content' = content ++ data ∧ content'.length < M := by
  simp only [pass] at passed
  repeat' split at passed
  all_goals cases passed
  rename_i size
  refine ⟨rfl, ?_⟩
  rw [List.length_append] at size ⊢
  omega

/-- What the handler makes of the results does not depend on which of the calls of `Read` asks
for them. -/
theorem serve_callsOf {content : Bytes} {results : List ReadResult} (room : content.length < M)
    (fits : Fits M content results) :
    serve M (.listening content) (callsOf results) =
      results.foldl (Handler.takes M) (.listening content) := by
  induction results generalizing content with
  | nil =>
      simp only [callsOf, serve, serve_nil]
      rw [onEvent_in _ room]
      rfl
  | cons result rest ih =>
      obtain ⟨call, calls, split⟩ := callsOf_cons rest
      cases result with
      | again =>
          have later : Fits M content rest := by
            intro front data back parts
            exact fits (.again :: front) data back (by rw [parts, List.cons_append])
          rw [callsOf, serve, onEvent_in _ room]
          exact ih room later
      | error =>
          rw [callsOf_join (by simp) split, serve, onEvent_in _ room]
          exact (serve_finished calls [] content.length).trans
            (foldl_finished rest [] content.length).symm
      | bytes data =>
          have size : content.length + data.length ≤ M := by
            have bound := fits [] data rest rfl (by simpa using room)
            simpa using bound
          rw [callsOf_join (by simp) split, serve, onEvent_in _ room, List.foldl_cons, readLoop,
            Handler.takes]
          cases passed : pass M content (.bytes data) with
          | goesOn content' =>
              obtain ⟨rfl, room'⟩ := pass_goesOn size passed
              rw [← ih room' fits.tail, split, serve, onEvent_in _ room']
          | returns value content' =>
              rw [pass_bytes_value passed]
              exact (serve_finished calls _ _).trans (foldl_finished rest _ _).symm
          | throws => exact (serve_aborted calls).trans (foldl_aborted rest).symm

theorem served_eq {results : List ReadResult} (positive : 0 < M) (fits : Fits M [] results) :
    served M results = results.foldl (Handler.takes M) (.listening []) :=
  serve_callsOf positive fits

theorem takes_listening {content content' : Bytes} {result : ReadResult}
    (listening : Handler.takes M (.listening content) result = .listening content') :
    content' = content ++ received [result] := by
  have keeps : Handler.listening content = .listening content' → content' = content ++ [] := by
    intro same
    cases same
    exact (List.append_nil content).symm
  cases result with
  | again => exact keeps listening
  | error => cases listening
  | bytes data =>
      have whole : received [.bytes data] = data := List.append_nil data
      rw [whole]
      cases passed : pass M content (.bytes data) with
      | goesOn content₁ =>
          simp only [Handler.takes, passed] at listening
          cases listening
          simp only [pass] at passed
          repeat' split at passed
          all_goals cases passed
          rfl
      | returns value content₁ =>
          rw [pass_bytes_value passed] at passed
          simp only [Handler.takes, passed] at listening
          cases listening
      | throws =>
          simp only [Handler.takes, passed] at listening
          cases listening

/-- A handler that still listens has everything that was read. -/
theorem foldl_listening {content content' : Bytes} {results : List ReadResult}
    (listening : results.foldl (Handler.takes M) (.listening content) = .listening content') :
    content' = content ++ received results := by
  induction results generalizing content with
  | nil =>
      cases listening
      exact (List.append_nil _).symm
  | cons result rest ih =>
      rw [List.foldl_cons] at listening
      cases took : Handler.takes M (.listening content) result with
      | listening content₁ =>
          rw [took] at listening
          rw [ih listening, takes_listening took, List.append_assoc, ← received_append]
          rfl
      | finished h taken =>
          rw [took, foldl_finished] at listening
          cases listening
      | aborted =>
          rw [took, foldl_aborted] at listening
          cases listening

/-- A call of `Read` takes the results one by one, and only the last one may decide. -/
theorem readLoop_takes {content content' : Bytes} {results : List ReadResult}
    {value : Option Bytes} (returned : readLoop M content results = .returned value content' []) :
    ∃ front last middle, results = front ++ [last] ∧
      front.foldl (Handler.takes M) (.listening content) = .listening middle ∧
      Handler.takes M (.listening middle) last = match value with
        | none => .listening content'
        | some h => .finished h content'.length := by
  induction results generalizing content with
  | nil => cases returned
  | cons result rest ih =>
      rw [readLoop] at returned
      cases passed : pass M content result with
      | goesOn content₁ =>
          rw [passed] at returned
          obtain ⟨front, last, middle, rfl, listening, took⟩ := ih returned
          refine ⟨result :: front, last, middle, rfl, ?_, took⟩
          rw [List.foldl_cons, Handler.takes, passed]
          exact listening
      | returns answer content₁ =>
          rw [passed] at returned
          cases returned
          refine ⟨[], result, content, rfl, rfl, ?_⟩
          rw [Handler.takes, passed]
          cases value with
          | none => rfl
          | some h => rfl
      | throws =>
          rw [passed] at returned
          cases returned

theorem served_append {front back : List ReadResult} (positive : 0 < M)
    (fits : Fits M [] (front ++ back)) :
    served M (front ++ back) = back.foldl (Handler.takes M) (served M front) := by
  rw [served_eq positive fits, served_eq positive fits.of_append, List.foldl_append]

end Runs

section Outcomes

variable {M : ℕ}

theorem Undecided.of_part {front results : List ReadResult} (undecided : Undecided M results)
    (before : front <+: results) : Undecided M front where
  agrees := undecided.agrees.of_part (received_part before)
  clean result member := undecided.clean result (before.subset member)
  unended shorter part := undecided.unended shorter (part.trans before)
  room shorter part := undecided.room shorter (part.trans before)

/-- Before its last chunk a request is undecided. -/
theorem IsRequest.undecided {front : List ReadResult} {result : ReadResult} {h : Bytes}
    (request : IsRequest M (front ++ [result]) h) : Undecided M front := by
  have inside : front <+: front ++ [result] := List.prefix_append _ _
  have shorter : ∀ before, before <+: front → before <+: front ++ [result] ∧
      before ≠ front ++ [result] := by
    intro before part
    refine ⟨part.trans inside, ?_⟩
    rintro rfl
    have size := part.length_le
    rw [List.length_append, List.length_singleton] at size
    omega
  constructor
  · exact (agrees_of_starts request.starts).of_part (received_part inside)
  · exact fun result member => request.clean result (inside.subset member)
  · exact fun before part => request.first before (shorter before part).1 (shorter before part).2
  · exact fun before part => request.room before (shorter before part).1 (shorter before part).2

/-- While nothing is decisive, the handler has all that was read. -/
theorem served_of_undecided {results : List ReadResult} (positive : 0 < M)
    (fits : Fits M [] results) (undecided : Undecided M results) :
    served M results = .listening (received results) ∧ (received results).length < M := by
  induction results using List.reverseRecOn with
  | nil => exact ⟨(served_eq positive fits).trans rfl, positive⟩
  | append_singleton front result ih =>
      obtain ⟨listening, room⟩ := ih fits.of_append (undecided.of_part (List.prefix_append _ _))
      have whole := undecided.unended _ List.prefix_rfl
      have size := undecided.room _ List.prefix_rfl
      have agrees := undecided.agrees
      have clean := undecided.clean result (by simp)
      rw [served_append positive fits, listening]
      cases result with
      | again =>
          rw [received_again]
          exact ⟨rfl, room⟩
      | error => exact absurd (.inr rfl) clean
      | bytes data =>
          have below := fits front data [] rfl room
          rw [received_bytes] at whole size agrees ⊢
          rw [List.nil_append] at below
          have before := agrees.of_part (List.prefix_append (received front) data)
          have passed := bytes_pass M data before
          simp only [List.foldl_cons, List.foldl_nil, Handler.takes]
          generalize pass M (received front) (.bytes data) = next at passed
          cases passed with
          | mismatch differs => exact absurd agrees differs
          | eof empty => exact absurd (.inl (by rw [empty])) clean
          | ends _ ended => simp [whole] at ended
          | full _ _ _ full => exact absurd full size
          | goesOn => exact ⟨rfl, by omega⟩

theorem served_of_request {results : List ReadResult} {h : Bytes} (positive : 0 < M)
    (fits : Fits M [] results) (accepts : Accepts M results h) :
    ∃ taken, served M results = .finished h taken := by
  obtain ⟨_, ⟨back, rfl⟩, request⟩ := accepts
  rename_i whole
  induction whole using List.reverseRecOn with
  | nil => exact absurd request.ended (by decide)
  | append_singleton front result =>
      have undecided := request.undecided
      obtain ⟨listening, room⟩ :=
        served_of_undecided positive fits.of_append.of_append undecided
      have unended := undecided.unended _ List.prefix_rfl
      have ended := request.ended
      have clean := request.clean result (by simp)
      have starts := request.starts
      have agrees := agrees_of_starts starts
      have host := hostPort_eq_takeWhile agrees ended
      rw [← (isHost_iff starts).mp request.host] at host
      rw [served_append positive fits, served_append positive fits.of_append, listening]
      cases result with
      | again => simp [received_again, unended] at ended
      | error => exact absurd (.inr rfl) clean
      | bytes data =>
          rw [received_bytes] at ended agrees host
          have before := agrees.of_part (List.prefix_append (received front) data)
          have passed := bytes_pass M data before
          simp only [List.foldl_cons, List.foldl_nil, Handler.takes]
          generalize pass M (received front) (.bytes data) = next at passed
          cases passed with
          | mismatch differs => exact absurd agrees differs
          | eof empty => exact absurd (.inl (by rw [empty])) clean
          | full _ unended => simp [ended] at unended
          | goesOn _ unended => simp [ended] at unended
          | ends _ _ host' =>
              rw [host] at host'
              cases host'
              exact ⟨_, foldl_finished back h _⟩

theorem served_of_malformed {results : List ReadResult} (positive : 0 < M)
    (fits : Fits M [] results) (malformed : Malformed M results) :
    ∃ taken, served M results = .finished [] taken := by
  obtain ⟨front, result, ⟨back, rfl⟩, undecided, refuses⟩ := malformed
  obtain ⟨listening, room⟩ := served_of_undecided positive fits.of_append.of_append undecided
  have unended := undecided.unended _ List.prefix_rfl
  rw [served_append positive fits, served_append positive fits.of_append, listening]
  have ends : ∃ taken, [result].foldl (Handler.takes M) (.listening (received front)) =
      .finished [] taken := by
    simp only [List.foldl_cons, List.foldl_nil, Handler.takes]
    cases result with
    | again =>
        cases refuses with
        | ends none => rcases none with none | none <;> cases none
    | error => exact ⟨_, rfl⟩
    | bytes data =>
        have passed := bytes_pass M data undecided.agrees
        generalize pass M (received front) (.bytes data) = next at passed
        cases passed with
        | mismatch | eof | full => exact ⟨_, rfl⟩
        | ends agrees ended host =>
            cases refuses with
            | ends none =>
                rcases none with none | none
                · cases none
                  simp [unended] at ended
                · cases none
            | mismatch differs => exact absurd agrees differs
            | full unended => simp [ended] at unended
            | noHost _ empty =>
                have starts : kConnectPrefix <+: received front ++ data := by
                  simpa using empty.follows
                rw [hostPort_eq_takeWhile agrees ended, ← (isHost_iff starts).mp empty] at host
                cases host
                exact ⟨_, rfl⟩
        | goesOn agrees unended filled size =>
            cases refuses with
            | ends none =>
                rcases none with none | none
                · cases none
                  exact absurd rfl filled
                · cases none
            | mismatch differs => exact absurd agrees differs
            | full _ full => exact absurd full size
            | noHost ended => simp [ended] at unended
  obtain ⟨taken, ends⟩ := ends
  exact ⟨taken, by rw [ends, foldl_finished]⟩

theorem Undecided.concat {front : List ReadResult} {result : ReadResult}
    (undecided : Undecided M front) (agrees : Agrees (received (front ++ [result])))
    (clean : ¬ result.Ends) (unended : endsWith (received (front ++ [result])) terminator = false)
    (size : (received (front ++ [result])).length ≠ M) : Undecided M (front ++ [result]) := by
  refine ⟨agrees, fun other member => ?_, fun before part => ?_, fun before part => ?_⟩
  · rcases List.mem_append.mp member with earlier | last
    · exact undecided.clean other earlier
    · rwa [List.mem_singleton.mp last]
  · rcases List.prefix_concat_iff.mp part with rfl | earlier
    · exact unended
    · exact undecided.unended before earlier
  · rcases List.prefix_concat_iff.mp part with rfl | earlier
    · exact size
    · exact undecided.room before earlier

theorem Undecided.isRequest {front : List ReadResult} {data : Bytes} (undecided : Undecided M front)
    (fits : Fits M [] (front ++ [.bytes data])) (room : (received front).length < M)
    (agrees : Agrees (received front ++ data)) (filled : data ≠ [])
    (ended : endsWith (received front ++ data) terminator = true) :
    IsRequest M (front ++ [.bytes data])
      (((received front ++ data).drop kConnectPrefix.length).takeWhile hostByte) := by
  have before : ∀ shorter, shorter <+: front ++ [.bytes data] → shorter ≠ front ++ [.bytes data] →
      shorter <+: front := by
    intro shorter part other
    exact (List.prefix_concat_iff.mp part).resolve_left other
  have starts : kConnectPrefix <+: received front ++ data := by
    have whole : (received front ++ data).take (received front ++ data).length =
        received front ++ data := List.take_length
    rw [← whole] at agrees ended
    exact prefix_of_agrees agrees ended
  refine ⟨?_, fun shorter part other => undecided.unended _ (before shorter part other), ?_, ?_,
    fun shorter part other => undecided.room _ (before shorter part other), ?_, ?_⟩
  · rwa [received_bytes]
  · intro result member
    rcases List.mem_append.mp member with earlier | last
    · exact undecided.clean result earlier
    · rw [List.mem_singleton.mp last]
      rintro (empty | error)
      · exact filled (ReadResult.bytes.inj empty)
      · cases error
  · rw [received_bytes]
    exact fits front data [] rfl room
  · rwa [received_bytes]
  · rw [received_bytes]
    exact (isHost_iff starts).mpr rfl

/-- All results are undecided, or one of them decides. -/
theorem undecided_or {results : List ReadResult} (positive : 0 < M) (fits : Fits M [] results) :
    Undecided M results ∨ (∃ h, h ≠ [] ∧ Accepts M results h) ∨ Malformed M results := by
  induction results using List.reverseRecOn with
  | nil =>
      refine .inl ⟨rfl, by simp, fun front before => ?_, fun front before => ?_⟩
      · rw [List.prefix_nil.mp before]
        rfl
      · rw [List.prefix_nil.mp before]
        exact Nat.ne_of_lt positive
  | append_singleton front result ih =>
      rcases ih fits.of_append with undecided | ⟨h, named, request, before, is⟩ | malformed
      · by_cases ends : result.Ends
        · exact .inr (.inr ⟨front, result, List.prefix_rfl, undecided, .ends ends⟩)
        obtain ⟨_, room⟩ := served_of_undecided positive fits.of_append undecided
        have unended := undecided.unended _ List.prefix_rfl
        have size := undecided.room _ List.prefix_rfl
        cases result with
        | error => exact absurd (.inr rfl) ends
        | again =>
            refine .inl (undecided.concat ?_ ends ?_ ?_)
            · rw [received_again]
              exact undecided.agrees
            · rwa [received_again]
            · rwa [received_again]
        | bytes data =>
            have filled : data ≠ [] := fun empty => ends (.inl (by rw [empty]))
            have refused : Refuses M (received front) (.bytes data) →
                Malformed M (front ++ [.bytes data]) :=
              fun refuses => ⟨front, _, List.prefix_rfl, undecided, refuses⟩
            by_cases agrees : Agrees (received front ++ data)
            · cases ended : endsWith (received front ++ data) terminator with
              | true =>
                  have request := undecided.isRequest fits room agrees filled ended
                  by_cases named :
                      ((received front ++ data).drop kConnectPrefix.length).takeWhile hostByte = []
                  · rw [named] at request
                    have host := request.host
                    rw [received_bytes] at host
                    exact .inr (.inr (refused (.noHost ended host)))
                  · exact .inr (.inl ⟨_, named, _, List.prefix_rfl, request⟩)
              | false =>
                  by_cases full : (received front ++ data).length = M
                  · exact .inr (.inr (refused (.full ended full)))
                  · refine .inl (undecided.concat ?_ ends ?_ ?_)
                    · rwa [received_bytes]
                    · rwa [received_bytes]
                    · rwa [received_bytes]
            · exact .inr (.inr (refused (.mismatch agrees)))
      · exact .inr (.inl ⟨h, named, request, before.trans (List.prefix_append _ _), is⟩)
      · obtain ⟨shorter, last, before, known⟩ := malformed
        exact .inr (.inr ⟨shorter, last, before.trans (List.prefix_append _ _), known⟩)

/-- How the handler stands after any results of `read()`. -/
theorem served_cases {results : List ReadResult} (positive : 0 < M) (fits : Fits M [] results) :
    (served M results = .listening (received results) ∧ (received results).length < M) ∨
    (∃ h taken, h ≠ [] ∧ served M results = .finished h taken ∧ Accepts M results h) ∨
    (∃ taken, served M results = .finished [] taken ∧ Malformed M results) := by
  rcases undecided_or positive fits with undecided | ⟨h, named, accepts⟩ | malformed
  · exact .inl (served_of_undecided positive fits undecided)
  · obtain ⟨taken, finished⟩ := served_of_request positive fits accepts
    exact .inr (.inl ⟨h, taken, named, finished, accepts⟩)
  · obtain ⟨taken, finished⟩ := served_of_malformed positive fits malformed
    exact .inr (.inr ⟨taken, finished, malformed⟩)

/-- Nothing that comes before the last result of a request is a request. -/
theorem isRequest_of_last {front : List ReadResult} {last : ReadResult} {content h : Bytes}
    {taken : ℕ} (positive : 0 < M) (fits : Fits M [] (front ++ [last]))
    (listening : served M front = .listening content) (named : h ≠ [])
    (finished : served M (front ++ [last]) = .finished h taken) :
    IsRequest M (front ++ [last]) h := by
  have accepts : Accepts M (front ++ [last]) h := by
    rcases served_cases positive fits with ⟨same, _⟩ | ⟨other, _, _, done, accepts⟩ | ⟨_, done, _⟩
    · rw [finished] at same
      cases same
    · rw [finished] at done
      cases done
      exact accepts
    · rw [finished] at done
      cases done
      exact absurd rfl named
  obtain ⟨request, before, is⟩ := accepts
  rcases List.prefix_concat_iff.mp before with same | before
  · rwa [← same]
  · obtain ⟨_, done⟩ := served_of_request positive fits.of_append ⟨request, before, is⟩
    rw [listening] at done
    cases done

/-- A handler that still listens has read everything there was, and its next pass stays in range. -/
theorem inRange_of_listening {front : List ReadResult} {result : ReadResult} {content : Bytes}
    (positive : 0 < M) (fits : Fits M [] (front ++ [result]))
    (listening : served M front = .listening content) : InRange M content result := by
  have known : content = received front ∧ (received front).length < M := by
    rcases served_cases positive fits.of_append with ⟨same, room⟩ | ⟨h, taken, _, done, _⟩ |
      ⟨taken, done, _⟩
    · rw [listening] at same
      cases same
      exact ⟨rfl, room⟩
    · rw [listening] at done
      cases done
    · rw [listening] at done
      cases done
  obtain ⟨rfl, room⟩ := known
  refine ⟨room, ?_, ?_, ?_⟩
  · rintro data rfl
    simpa using fits front data [] rfl room
  · rintro data rfl _
    omega
  · rintro data rfl agrees ended
    exact ⟨Nat.le_of_add_right_le (length_of_ended agrees ended),
      findFirstOf_of_ended agrees ended⟩

/-- The language of `Read`. -/
theorem language (positive : 0 < M) (results : List ReadResult) (fits : Fits M [] results) :
    (∀ h, h ≠ [] → ((∃ taken, served M results = .finished h taken) ↔ Accepts M results h)) ∧
    ((∃ taken, served M results = .finished [] taken) ↔ Malformed M results) ∧
    (¬ Malformed M results → (∀ h, h ≠ [] → ¬ Accepts M results h) →
      served M results = .listening (received results)) ∧
    served M results ≠ .aborted ∧
    ∀ front result content, front ++ [result] <+: results →
      served M front = .listening content → InRange M content result := by
  have inRange : ∀ front result content, front ++ [result] <+: results →
      served M front = .listening content → InRange M content result := by
    rintro front result content ⟨back, rfl⟩ listening
    exact inRange_of_listening positive fits.of_append listening
  have accepted : ∀ h, Accepts M results h → ∃ taken, served M results = .finished h taken :=
    fun h => served_of_request positive fits
  have refused := served_of_malformed positive fits
  refine ⟨fun h named => ⟨?_, accepted h⟩, ⟨?_, refused⟩, ?_, ?_, inRange⟩
  all_goals
    rcases served_cases positive fits with ⟨now, room⟩ | ⟨h', taken', named', now, accepts⟩ |
      ⟨taken', now, malformed⟩
    all_goals rw [now]
  · rintro ⟨taken, finished⟩
    cases finished
  · rintro ⟨taken, finished⟩
    cases finished
    exact accepts
  · rintro ⟨taken, finished⟩
    cases finished
    exact absurd rfl named
  · rintro ⟨taken, finished⟩
    cases finished
  · rintro ⟨taken, finished⟩
    cases finished
    exact absurd rfl named'
  · exact fun _ => malformed
  · exact fun _ _ => rfl
  · exact fun _ waiting => absurd accepts (waiting h' named')
  · exact fun wellFormed => absurd malformed wellFormed
  · simp
  · simp
  · simp

/-- `"CONN"`, `"ECT a:1\r\n\r"` and `"\n"`, over three calls. -/
def cutRequest : List ReadResult :=
  [.bytes (kConnectPrefix.take 4), .again,
    .bytes (kConnectPrefix.drop 4 ++ [0x61, 0x3A, 0x31, 0x0D, 0x0A, 0x0D]), .again, .bytes [0x0A]]

theorem language_cutRequest : Accepts 64 cutRequest [0x61, 0x3A, 0x31] :=
  ((language (by decide) cutRequest (fits_of_length (by decide))).1 _ (by decide)).mp
    ⟨15, by decide⟩

end Outcomes

end Hcproxy.Parser
