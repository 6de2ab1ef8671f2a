import Mathlib.Data.Finset.Basic
import Mathlib.Data.List.TakeWhile
import Hcproxy.DnsFreshness
import Hcproxy.ParserLanguage

set_option autoImplicit false

namespace Hcproxy.PortFilter

open Hcproxy.Parser (Bytes)

/-- `':'` -/
def colon : UInt8 := 0x3A

/-- `find` of a `string_view`; `none` is `npos`. -/
def find (s : Bytes) (byte : UInt8) : Option ℕ := s.findIdx? (· == byte)

/-- The string that `IsAllowedPort` looks for among `allowed_ports`. -/
def checkedPort (host_port : Bytes) : Option Bytes :=
  (find host_port colon).map fun sep => host_port.drop (sep + 1)

/-- `IsAllowedPort`. -/
def isAllowedPort (allowed_ports : Finset Bytes) (host_port : Bytes) : Bool :=
  match checkedPort host_port with
  | none => false
  | some port => decide (allowed_ports = ∅) || decide (port ∈ allowed_ports)

/-- The memory that `c_str()` points to. -/
def cStr (s : Bytes) : Bytes := s ++ [0]

/-- What is read through a pointer to a C string: the bytes before the first NUL. -/
def cString (memory : Bytes) : Bytes := memory.takeWhile (· != 0)

/-- `strchr`, as an offset; the byte is not NUL. -/
def strchr (memory : Bytes) (byte : UInt8) : Option ℕ := (cString memory).findIdx? (· == byte)

/-- The host and the service that `ResolveSync` gives to `getaddrinfo`, as that reads them. -/
def arguments (host_port : Bytes) : Option (Bytes × Bytes) :=
  (strchr (cStr host_port) colon).map fun port =>
    let host := (cStr host_port).take port
    (cString (cStr host), cString ((cStr host_port).drop (port + 1)))

/-- What the parser's callback in `RunProxy` goes on with. -/
inductive Continuation
  | closes
  | resolves (host_port : Bytes)
  deriving DecidableEq

def onParsed (allowed_ports : Finset Bytes) (host_port : Bytes) : Continuation :=
  if host_port = [] ∨ isAllowedPort allowed_ports host_port = false then .closes
  else .resolves host_port

/-- The arguments of `getaddrinfo` are those that `IsAllowedPort` has seen. -/
def Agree (allowed_ports : Finset Bytes) (host_port : Bytes) : Prop :=
  ∀ host service, arguments host_port = some (host, service) →
    service ∈ allowed_ports ∧ checkedPort host_port = some service ∧
      host = host_port.takeWhile (· != colon)

section CStrings

theorem cString_cStr (s : Bytes) : cString (cStr s) = cString s := by
  unfold cString cStr
  rw [List.takeWhile_append]
  split
  · rename_i whole
    have same : s.takeWhile (· != 0) = s :=
      (List.takeWhile_prefix _).eq_of_length whole
    rw [same]
    simp
  · rfl

theorem cString_of_clean {s : Bytes} (clean : 0 ∉ s) : cString s = s := by
  unfold cString
  rw [List.takeWhile_eq_self_iff]
  intro byte member
  have other : byte ≠ 0 := fun zero => clean (zero ▸ member)
  simpa using other

theorem cString_clean (s : Bytes) : 0 ∉ cString s := by
  intro member
  have other := List.all_eq_true.mp (List.all_takeWhile (p := (· != 0)) (l := s)) 0 member
  simp at other

/-- The bytes before the first `byte`. -/
theorem take_of_find {s : Bytes} {byte : UInt8} {i : ℕ} (found : find s byte = some i) :
    s.take i = s.takeWhile (· != byte) ∧ i < s.length := by
  obtain ⟨inside, first⟩ := List.findIdx?_eq_some_iff_findIdx_eq.mp found
  refine ⟨?_, inside⟩
  have stops : (fun a => !(a != byte)) = fun a => a == byte := by
    funext a
    simp [bne]
  rw [List.takeWhile_eq_take_findIdx_not, stops, first]

/-- `strchr` sees the bytes before the first NUL, and finds there what `find` finds. -/
theorem find_of_strchr {s : Bytes} {byte : UInt8} {i : ℕ}
    (found : strchr (cStr s) byte = some i) : find s byte = some i ∧ 0 ∉ s.take i := by
  have seen : s = cString s ++ s.dropWhile (· != 0) := List.takeWhile_append_dropWhile.symm
  rw [strchr, cString_cStr] at found
  have inside := (List.findIdx?_eq_some_iff_findIdx_eq.mp found).1
  constructor
  · unfold find
    rw [seen, List.findIdx?_append, found]
    rfl
  · intro member
    rw [seen, List.take_append_of_le_length (by omega)] at member
    exact cString_clean s (List.mem_of_mem_take member)

end CStrings

variable {allowed_ports : Finset Bytes} {host_port : Bytes}

theorem checkedPort_of_allowed (filled : allowed_ports ≠ ∅)
    (allowed : isAllowedPort allowed_ports host_port = true) :
    ∃ port, checkedPort host_port = some port ∧ port ∈ allowed_ports := by
  unfold isAllowedPort at allowed
  split at allowed
  · cases allowed
  · rename_i port checked
    exact ⟨port, checked, by simpa [filled] using allowed⟩

/-- The two ways of cutting `host_port` at a colon agree, or there is no call of `getaddrinfo`. -/
theorem agree_of_allowed (filled : allowed_ports ≠ ∅) (clean : ∀ port ∈ allowed_ports, 0 ∉ port)
    (allowed : isAllowedPort allowed_ports host_port = true) : Agree allowed_ports host_port := by
  intro host service given
  obtain ⟨port, checked, member⟩ := checkedPort_of_allowed filled allowed
  obtain ⟨sep, found, cut⟩ := Option.map_eq_some_iff.mp given
  obtain ⟨found, before⟩ := find_of_strchr found
  obtain ⟨taken, inside⟩ := take_of_find found
  have named : host = host_port.take sep := by
    rw [← (Prod.mk.inj cut).1, cString_cStr, cStr, List.take_append_of_le_length (by omega)]
    exact cString_of_clean before
  have rest : port = host_port.drop (sep + 1) := by
    rw [checkedPort, found] at checked
    exact (Option.some.inj checked).symm
  have served : service = port := by
    rw [← (Prod.mk.inj cut).2, cStr, List.drop_append_of_le_length (by omega), ← rest]
    exact (cString_cStr port).trans (cString_of_clean (clean port member))
  rw [served]
  exact ⟨member, checked, named.trans taken⟩

theorem allowed_of_resolves {passed : Bytes}
    (resolves : onParsed allowed_ports host_port = .resolves passed) :
    passed = host_port ∧ host_port ≠ [] ∧ isAllowedPort allowed_ports host_port = true := by
  unfold onParsed at resolves
  split at resolves
  · cases resolves
  · rename_i passes
    cases resolves
    simpa using passes

/-- `ResolveSync`, over what `getaddrinfo` may answer. -/
inductive ResolveSync {A : Type} (getaddrinfo : Bytes → Bytes → List A → Prop)
    (host_port : Bytes) : Option (List A) → Prop
  | malformed (missing : arguments host_port = none) : ResolveSync getaddrinfo host_port none
  | error {host service : Bytes} (given : arguments host_port = some (host, service)) :
      ResolveSync getaddrinfo host_port none
  | resolved {host service : Bytes} {items : List A}
      (given : arguments host_port = some (host, service))
      (answered : getaddrinfo host service items) : ResolveSync getaddrinfo host_port (some items)

/-- A request for `host_port` that the parser accepts and for which `RunProxy` calls `Resolve`. -/
def Requested (M : ℕ) (allowed_ports : Finset Bytes) (host_port : Bytes) : Prop :=
  ∃ results taken, Parser.Fits M [] results ∧
    Parser.served M results = .finished host_port taken ∧
    onParsed allowed_ports host_port = .resolves host_port

theorem Requested.allowed {M : ℕ} (requested : Requested M allowed_ports host_port) :
    isAllowedPort allowed_ports host_port = true := by
  obtain ⟨_, _, _, _, resolves⟩ := requested
  exact (allowed_of_resolves resolves).2.2

open Hcproxy.Dns
open Ring (Cursor)

variable {κ A : Type} {opt : Options} {M : ℕ} {getaddrinfo : Bytes → Bytes → List A → Prop}

/-- The resolver in `RunProxy`: what it is asked for passed the filter, and what it looks up comes
from `ResolveSync` of the name of the entry. -/
def Filtered (M : ℕ) (allowed_ports : Finset Bytes) (getaddrinfo : Bytes → Bytes → List A → Prop)
    (s : State κ A) : Action κ A → Prop
  | .call host_port _ => Requested M allowed_ports host_port
  | .returnResolve j addr => ∀ it host_port, s.workers[j]? = some (.resolving it) →
      s.key it = some host_port → ResolveSync getaddrinfo host_port (addr.map Subtype.val)
  | _ => True

/-- A result of `getaddrinfo` for what `host_port` asks for. -/
def Sound (getaddrinfo : Bytes → Bytes → List A → Prop) (host_port : Bytes)
    (result : Option (Cursor A)) : Prop :=
  ∀ q ∈ result, ∃ host service, arguments host_port = some (host, service) ∧
    getaddrinfo host service q.items

/-- The lookups that an answer was picked from were made for the name of its entry. -/
def Told (getaddrinfo : Bytes → Bytes → List A → Prop) (s : State κ A) (a : Answer κ A) : Prop :=
  ∃ host_port, s.key a.node = some host_port ∧
    ∀ l ∈ a.seen, Sound getaddrinfo host_port l.result

/-- Entries are for requested names, and their lookups were made for these names. -/
structure Sourced (M : ℕ) (allowed_ports : Finset Bytes)
    (getaddrinfo : Bytes → Bytes → List A → Prop) (s : State κ A) : Prop where
  calls : ∀ host_port cb now, .locking host_port cb now ∈ s.calls →
    Requested M allowed_ports host_port
  keys : ∀ n ∈ s.nodes, Requested M allowed_ports n.key
  lookups : ∀ n ∈ s.nodes, ∀ l ∈ n.lookups, Sound getaddrinfo n.key l.result
  due : ∀ a, .calling a ∈ s.calls → Told getaddrinfo s a
  next : ∀ it callbacks addr index now seen,
    .calling it callbacks addr index now seen ∈ s.workers → ∀ cb,
      Told getaddrinfo s ⟨cb, addr, it, index, now, seen⟩
  given : ∀ a ∈ s.answers, Told getaddrinfo s a

theorem recordLookup_result {lookups : List (Lookup A)} {k now uses : ℕ} {l : Lookup A}
    (member : l ∈ recordLookup lookups k now uses) : ∃ m ∈ lookups, l.result = m.result := by
  obtain ⟨i, found⟩ := List.mem_iff_getElem?.mp member
  rw [recordLookup, List.getElem?_modify] at found
  obtain ⟨m, before, rfl⟩ := Option.map_eq_some_iff.mp found
  refine ⟨m, List.mem_of_getElem? before, ?_⟩
  split <;> rfl

theorem sound_head {host_port : Bytes} {result : Option { items : List A // items ≠ [] }}
    (resolved : ResolveSync getaddrinfo host_port (result.map Subtype.val)) :
    Sound getaddrinfo host_port (result.map fun items => Cursor.head items.1 items.2) := by
  intro q some
  obtain ⟨items, rfl, rfl⟩ := Option.map_eq_some_iff.mp some
  cases resolved with
  | resolved given answered => exact ⟨_, _, given, answered⟩

theorem Told.kept {s t : State κ A} {a : Action κ A} {b : Answer κ A} (told : Told getaddrinfo s b)
    (moved : Moved opt s a t) : Told getaddrinfo t b := by
  obtain ⟨host_port, key, sound⟩ := told
  exact ⟨host_port, key_kept moved key, sound⟩

theorem Sourced.told {s : State κ A} (sourced : Sourced M allowed_ports getaddrinfo s) {it : ℕ}
    {n : Node κ A} (node : s.node it = some n) (cb : κ) (addr : Option (Cursor A))
    (index now : ℕ) : Told getaddrinfo s ⟨cb, addr, it, index, now, n.lookups⟩ :=
  ⟨n.key, State.key_of_node node,
    sourced.lookups n (List.mem_of_getElem? (State.node_eq_some.mp node).1)⟩

/-- What is known about a node. -/
def Filled (M : ℕ) (allowed_ports : Finset Bytes) (getaddrinfo : Bytes → Bytes → List A → Prop)
    (n : Node κ A) : Prop :=
  Requested M allowed_ports n.key ∧ ∀ l ∈ n.lookups, Sound getaddrinfo n.key l.result

theorem Filled.record {n : Node κ A} (filled : Filled M allowed_ports getaddrinfo n)
    (lookup now : ℕ) (addr : Option (Cursor A)) :
    Filled M allowed_ports getaddrinfo (n.record lookup addr now) := by
  refine ⟨filled.1, fun l member => ?_⟩
  obtain ⟨m, before, same⟩ := recordLookup_result member
  rw [same]
  exact filled.2 m before

theorem Filled.drain {n : Node κ A} (filled : Filled M allowed_ports getaddrinfo n) (it now : ℕ) :
    Filled M allowed_ports getaddrinfo (drain opt it n now).2 := by
  unfold Filled
  rw [drain_key, drain_lookups]
  exact filled

theorem filled_kept {s t : State κ A} {a : Action κ A}
    (sourced : Sourced M allowed_ports getaddrinfo s)
    (admitted : Filtered M allowed_ports getaddrinfo s a) (moved : Moved opt s a t) :
    ∀ n ∈ t.nodes, Filled M allowed_ports getaddrinfo n := by
  have same : ∀ n ∈ s.nodes, Filled M allowed_ports getaddrinfo n :=
    fun n member => ⟨sourced.keys n member, sourced.lookups n member⟩
  have old : ∀ {it : ℕ} {n : Node κ A}, s.node it = some n →
      Filled M allowed_ports getaddrinfo n := by
    intro it n node
    exact same n (List.mem_of_getElem? (State.node_eq_some.mp node).1)
  have written : ∀ {it : ℕ} {m : Node κ A}, Filled M allowed_ports getaddrinfo m →
      ∀ n ∈ s.nodes.set it m, Filled M allowed_ports getaddrinfo n := by
    intro it m filled n member
    rcases Threads.mem_set member with rfl | member
    · exact filled
    · exact same n member
  cases moved with
  | tick | call | schedules | calls | starts | looksUp | reads | callsBack | relocks
  | reschedules | dangles => exact same
  | creates found absent =>
      intro n member
      rcases List.mem_append.mp member with member | member
      · exact same n member
      · rw [List.mem_singleton.mp member]
        exact ⟨sourced.calls _ _ _ (List.mem_of_getElem? found), fun l none => by cases none⟩
  | queues found cached node busy => exact written ⟨(old node).1, (old node).2⟩
  | answers found cached node idle => exact written ⟨(old node).1, (old node).2⟩
  | erases found node empty unused => exact written ⟨(old node).1, (old node).2⟩
  | skips found node recent => exact written ((old node).drain _ _)
  | returns found node result =>
      have key := State.key_of_node node
      refine written ⟨(old node).1, fun l member => ?_⟩
      rcases List.mem_append.mp member with member | member
      · exact (old node).2 l member
      · rw [List.mem_singleton.mp member]
        exact sound_head (admitted _ _ found key)
  | records found node => exact written (((old node).record _ _ _).drain _ _)

theorem sourced_kept {s t : State κ A} {a : Action κ A} (single : SingleTask s)
    (sourced : Sourced M allowed_ports getaddrinfo s)
    (admitted : Filtered M allowed_ports getaddrinfo s a) (moved : Moved opt s a t) :
    Sourced M allowed_ports getaddrinfo t := by
  have filled := filled_kept sourced admitted moved
  refine ⟨?_, fun n member => (filled n member).1, fun n member => (filled n member).2, ?_, ?_, ?_⟩
  · intro host_port cb now member
    have others : ∀ {i : ℕ} {y : Call κ A}, .locking host_port cb now ∈ s.calls.set i y →
        y ≠ .locking host_port cb now → Requested M allowed_ports host_port := by
      intro i y member different
      rcases Threads.mem_set member with same | member
      · exact absurd same.symm different
      · exact sourced.calls _ _ _ member
    cases moved with
    | call fresh =>
        rcases List.mem_append.mp member with member | member
        · exact sourced.calls _ _ _ member
        · cases List.mem_singleton.mp member
          exact admitted
    | creates | queues | answers | schedules | calls => exact others member (by simp)
    | tick | starts | erases | looksUp | skips | returns | reads | records | callsBack | relocks
    | reschedules | dangles => exact sourced.calls _ _ _ member
  · refine due_kept (P := Told getaddrinfo t) single
      (fun b due => (sourced.due b due).kept moved) moved ?_
    intro i host_port cb now it n _ _ _ node _
    exact (sourced.told node cb _ _ _).kept moved
  · refine next_kept (P := Told getaddrinfo t) single
      (fun it callbacks addr index now seen member cb =>
        (sourced.next it callbacks addr index now seen member cb).kept moved) moved
      (fun _ _ _ _ _ _ _ told => told) ?_
    intro it now m drains _ cb
    cases drains with
    | skipped found node recent => exact (sourced.told node cb _ _ _).kept moved
    | @recorded j it now lookup addr n found node =>
        have member := List.mem_of_getElem? (State.node_eq_some.mp node).1
        have filled : Filled M allowed_ports getaddrinfo n :=
          ⟨sourced.keys n member, sourced.lookups n member⟩
        have told : Told getaddrinfo s ⟨cb, (n.record lookup addr now).data.addr, it,
            (n.record lookup addr now).uses, now, (n.record lookup addr now).lookups⟩ :=
          ⟨n.key, State.key_of_node node, (filled.record lookup now addr).2⟩
        exact told.kept moved
  · exact given_kept (P := Told getaddrinfo t) (fun b given => (sourced.given b given).kept moved)
      (fun b due => (sourced.due b due).kept moved)
      (fun it callbacks addr index now seen member cb _ =>
        (sourced.next it callbacks addr index now seen member cb).kept moved) moved

theorem sourced_of_reachable [DecidableEq κ] {s : State κ A}
    (reach : ReachableIf opt (Filtered M allowed_ports getaddrinfo) s) :
    Sourced M allowed_ports getaddrinfo s := by
  refine Runs.Reachable.strengthen (fun _ => ReachableIf.singleTask) ?_ ?_ reach
  · rintro s ⟨clock, rfl⟩
    exact ⟨by simp, by simp, by simp, by simp, by simp, by simp⟩
  · rintro s t single sourced ⟨a, admitted, stepped⟩
    exact sourced_kept single sourced admitted (step_cases stepped)

/-- An address that is given was returned by `getaddrinfo` for the name of the entry. -/
theorem Told.sound {s : State κ A} {a : Answer κ A} {q : Cursor A} {host_port : Bytes}
    (told : Told getaddrinfo s a) (key : s.key a.node = some host_port) (given : a.addr = some q)
    (fresh : a.Current opt ∨ a.Own) : Sound getaddrinfo host_port (some q) := by
  obtain ⟨other, key', sound⟩ := told
  rw [key] at key'
  cases key'
  have source : ∃ l, latest a.seen = some l ∧ l.Gave q := by
    rcases fresh with current | own
    · obtain ⟨l, _, last, gave, _⟩ := current q given
      exact ⟨l, last, gave⟩
    · obtain ⟨l, last, _, gave, _⟩ := own q given
      exact ⟨l, last, gave⟩
  obtain ⟨l, last, p, result, items⟩ := source
  have member : l ∈ a.seen := List.mem_of_mem_filter (List.mem_of_getLast? last)
  rintro _ ⟨⟩
  rw [items]
  exact sound l member p result

/-- Every lookup, also one that refreshes an entry in the background, is for a name that a request
came with and that passed the filter, and it asks for what the filter has seen. So whatever
address a callback is given has an allowed port. -/
theorem port_filter [DecidableEq κ] {number : Bytes → ℕ} {port : A → ℕ}
    (filled : allowed_ports ≠ ∅) (clean : ∀ p ∈ allowed_ports, 0 ∉ p)
    (numeric : ∀ host service items, getaddrinfo host service items →
      ∀ a ∈ items, port a = number service)
    {s : State κ A} (reach : ReachableIf opt (Filtered M allowed_ports getaddrinfo) s) :
    (∀ j it : ℕ, s.workers[j]? = some (.resolving it) → ∃ host_port, s.key it = some host_port ∧
      Requested M allowed_ports host_port ∧ Agree allowed_ports host_port) ∧
    (∃ host, ReachableIf opt (fun s a => Filtered M allowed_ports getaddrinfo s a ∧
        Named host s a) s) ∧
    ∀ host, ReachableIf opt (Named host) s → Keyed host s ∧
      ∀ a ∈ s.answers, Requested M allowed_ports (host a.cb) ∧ ∀ q ∈ a.addr,
        ∃ service ∈ allowed_ports, checkedPort (host a.cb) = some service ∧
          ∀ item ∈ q.items, port item = number service := by
  have sourced := sourced_of_reachable reach
  have any : Reachable opt s := reach.mono fun _ _ ⟨a, _, stepped⟩ => ⟨a, trivial, stepped⟩
  have single := ReachableIf.singleTask reach
  have requested : ∀ it host_port, s.key it = some host_port →
      Requested M allowed_ports host_port := by
    intro it host_port key
    obtain ⟨n, found, rfl⟩ := Option.map_eq_some_iff.mp key
    exact sourced.keys n (List.mem_of_getElem? found)
  refine ⟨?_, exists_named reach, fun host named => ⟨keyed_of_reachable named, ?_⟩⟩
  · intro j it found
    have present : s.node it ≠ none := single.node_ne_none found (by simp [Worker.task])
    obtain ⟨n, node⟩ := Option.ne_none_iff_exists'.mp present
    have key := State.key_of_node node
    have asked := requested it n.key key
    exact ⟨n.key, key, asked, agree_of_allowed filled clean asked.allowed⟩
  · intro a member
    have key := (keyed_of_reachable named).given a member
    have asked := requested a.node _ key
    refine ⟨asked, fun q given => ?_⟩
    have fresh := (noStale_of_reachable any).given a member
    obtain ⟨name, service, passed, answered⟩ :=
      (sourced.given a member).sound key given fresh q rfl
    obtain ⟨allowed, checked, _⟩ := agree_of_allowed filled clean asked.allowed name service passed
    exact ⟨service, allowed, checked, fun item inside => numeric _ _ _ answered item inside⟩

/-- What `AI_NUMERICSERV` makes of a service. -/
def decimal (service : Bytes) : ℕ :=
  service.foldl (fun number digit => 10 * number + (digit.toNat - 48)) 0

/-- `getaddrinfo`, when only the host `"a"` has an address; an address is its port. -/
def hostA (host service : Bytes) (items : List ℕ) : Prop := host = [0x61] ∧ items = [decimal service]

/-- `"a:1"` -/
def hostPortA : Bytes := [0x61, 0x3A, 0x31]

theorem requested_hostPortA : Requested 64 {[0x31]} hostPortA := by
  refine ⟨[.bytes (Parser.kConnectPrefix ++ hostPortA ++ Parser.terminator)], 15, ?_, ?_, ?_⟩
  · exact Parser.fits_of_length (by decide)
  · decide
  · decide

/-- The entry for `"a:1"`, while it is looked up once more. -/
def refreshing : State ℕ ℕ where
  clock := 8
  nodes := [{
    key := hostPortA
    data := { addr := some ⟨[1], 0, by decide⟩, used_at := 5, resolved_at := 5
              successfully_resolved_at := 5, use_count := 1 }
    lookups := [⟨5, some ⟨[1], 0, by decide⟩, some 5, 0⟩]
    uses := 1 }]
  calls := [.done]
  workers := [.done, .resolving 0]
  issued := [0]
  answers := [⟨0, some ⟨[1], 0, by decide⟩, 0, 0, 5, [⟨5, some ⟨[1], 0, by decide⟩, some 5, 0⟩]⟩]

theorem refreshing_reachable : ReachableIf ⟨4, 3, 9⟩ (Filtered 64 {[0x31]} hostA) refreshing := by
  have asked : ReachableIf ⟨4, 3, 9⟩ (Filtered 64 {[0x31]} hostA) ({
      clock := 5, nodes := [{ key := hostPortA, data := { callbacks := [0] } }],
      calls := [.done], workers := [.resolving 0], issued := [0] } : State ℕ ℕ) := by
    refine Runs.replay_reachable_of [.call hostPortA 0, .lockCall 0, .scheduleCall 0, .start 0,
      .lockWorker 0] ?_ (.start ⟨5, rfl⟩) rfl
    intro a member s
    simp only [List.mem_cons, List.not_mem_nil, or_false] at member
    rcases member with rfl | rfl | rfl | rfl | rfl
    · exact requested_hostPortA
    all_goals trivial
  have answered := asked.move ⟨.returnResolve 0 (some ⟨[1], by decide⟩), ?_, rfl⟩
  · refine Runs.replay_reachable_of [.readClock 0, .lockRecord 0, .callback 0, .relock 0,
      .schedule 0, .tick 3, .start 0, .lockWorker 1] ?_ answered rfl
    intro a member s
    simp only [List.mem_cons, List.not_mem_nil, or_false] at member
    rcases member with rfl | rfl | rfl | rfl | rfl | rfl | rfl | rfl
    all_goals trivial
  · rintro it host_port ⟨⟩ ⟨⟩
    have given : arguments hostPortA = some ([0x61], [0x31]) := rfl
    exact .resolved given ⟨rfl, rfl⟩

theorem port_filter_refreshing : Agree {[0x31]} hostPortA ∧
    ∃ host : ℕ → HostPort, ∀ a ∈ refreshing.answers, ∀ q ∈ a.addr,
      checkedPort (host a.cb) = some [0x31] ∧ ∀ item ∈ q.items, id item = decimal [0x31] := by
  have numeric : ∀ host service items, hostA host service items →
      ∀ a ∈ items, id a = decimal service := by
    rintro host service items ⟨_, rfl⟩ a member
    exact List.mem_singleton.mp member
  have sound := @port_filter {[0x31]} ℕ ℕ ⟨4, 3, 9⟩ 64 hostA _ decimal id (by decide) (by decide)
    numeric refreshing refreshing_reachable
  obtain ⟨host_port, key, _, agree⟩ := sound.1 1 0 rfl
  cases key
  obtain ⟨⟨host, labelled⟩, every⟩ := sound.2
  have named : ReachableIf ⟨4, 3, 9⟩ (Named host) refreshing :=
    labelled.mono fun _ _ ⟨a, admitted, stepped⟩ => ⟨a, admitted.2, stepped⟩
  obtain ⟨_, given⟩ := every host named
  refine ⟨agree, host, fun a member q some => ?_⟩
  obtain ⟨service, allowed, checked, ports⟩ := (given a member).2 q some
  cases Finset.mem_singleton.mp allowed
  exact ⟨checked, ports⟩

end Hcproxy.PortFilter
