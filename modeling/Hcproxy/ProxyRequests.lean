import Hcproxy.ForwarderTimeouts
import Hcproxy.ForwarderTunnels
import Hcproxy.Lib.Observers
import Hcproxy.ProxyStages

set_option autoImplicit false

namespace Hcproxy.Proxy

open Hcproxy.Dns (HostPort)
open Hcproxy.Forwarder (Kernel Pair Watched)
open Hcproxy.Parser (Bytes ReadResult)
open PortFilter (Filtered Requested ResolveSync checkedPort colon onParsed)
open Programs
open Ring (Cursor)

section Pairs

variable {W : Type} {k : Kernel W} {opt : Forwarder.Options} {s t : Forwarder.State W}
  {a : Forwarder.Action W}

theorem length_run (s : Forwarder.State W) (i : ℕ) {m : Forwarder.Exec W PUnit}
    (next : Forwarder.Phase) : (s.run i m next).pairs.length = s.pairs.length := by
  cases found : s.pairs[i]? with
  | none => rw [Forwarder.State.run, found]
  | some p => rw [Forwarder.State.run_eq found, Forwarder.length_leave]

/-- The loop of the forwarder makes a pair where it runs a function that was scheduled. -/
theorem length_of_pops {fuel : ℕ} {leftFirst : Bool} (pops : popsNext s = true)
    (stepped : Forwarder.step k opt s (.dispatch fuel leftFirst) = some t) :
    t.pairs.length = s.pairs.length + 1 := by
  unfold popsNext at pops
  split at pops
  · rename_i rest phase
    simp only [Forwarder.step, phase] at stepped
    cases stepped
    rw [Forwarder.State.runNew, Forwarder.length_leave, List.length_append]
    rfl
  · cases pops

theorem length_of_quiet
    (quiet : ∀ fuel leftFirst, a = .dispatch fuel leftFirst → popsNext s = false)
    (stepped : Forwarder.step k opt s a = some t) : t.pairs.length = s.pairs.length := by
  cases Forwarder.moved_of_step k stepped with
  | outside | dispatched | idle | early => rfl
  | wait => exact (Forwarder.later_holdAll _ _).2
  | popFunc phase =>
      have quiet := quiet _ _ rfl
      rw [popsNext, phase] at quiet
      cases quiet
  | io | expires => exact length_run ..

end Pairs

/-- What a `ParseEventHandler` has of `content_`, with what `read()` has answered to it. -/
structure Incoming where
  content : Bytes := []
  results : List ReadResult := []

variable {A W : Type}

/-- `read()` writes no more bytes than there is room for. -/
def inRoom (M : ℕ) : Bytes → List ReadResult → Bool
  | _, [] => true
  | content, .bytes data :: rest =>
    decide (content.length + data.length ≤ M) && inRoom M (content ++ data) rest
  | content, .again :: rest | content, .error :: rest => inRoom M content rest

/-- The parser of each client. `Read` returns what it makes of the answers of its calls of
`read()`. -/
def hears (M : ℕ) : (o : Op A W) → Reply A W → List ReadResult → (File → Incoming) →
    Option (File → Incoming)
  | .new (.parse client), _, _, incoming => some (Function.update incoming client {})
  | .read (.parse client), .request value, results, incoming =>
    match Parser.read M (incoming client).content results with
    | .returned answer content [] =>
      if answer = value ∧ inRoom M (incoming client).content results = true then
        some (Function.update incoming client ⟨content, (incoming client).results ++ results⟩)
      else none
    | _ => none
  | _, _, _, incoming => some incoming

/-- What the threads share, with the history and what came from each client. -/
abbrev Heard (A W : Type) := Recorded A W × (File → Incoming)

/-- Lookups come from `ResolveSync`. -/
def LooksUp (getaddrinfo : Bytes → Bytes → List A → Prop) :
    Op A W → Reply A W × List ReadResult → Heard A W → Prop
  | .returnResolve j, (.addresses addr, _), s => ∀ it host_port,
    s.1.1.dns.workers[j]? = some (.resolving it) → s.1.1.dns.key it = some host_port →
      ResolveSync getaddrinfo host_port (addr.map Subtype.val)
  | _, _, _ => True

section Served

variable (opt : Options) (k : Kernel W) (capacity : LoopId → ℕ) (M : ℕ)
  (getaddrinfo : Bytes → Bytes → List A → Prop)

/-- The runs of the proxy with the bytes of its requests. -/
def Served : Programs.State (signature A W) Thread (Heard A W) → Prop :=
  Runs.Reachable
    (fun s => s.shared.2 = (fun _ => {}) ∧ s.forget.shared.2 = [] ∧ Init s.forget.forget)
    (Runs.Moves (step ((recording A opt k capacity).observed (hears M)))
      (Fine (LooksUp getaddrinfo)))

end Served

/-- Where the parser of a client stands. -/
structure Parsing (M : ℕ) (client : File) (events : List (Event (signature A W)))
    (incoming : Incoming) : Prop where
  fits : Parser.Fits M [] incoming.results
  listening : (.decided, client) ∉ stages events →
    incoming.results.foldl (Parser.Handler.takes M) (.listening []) = .listening incoming.content
  finished : ∀ host_port : HostPort,
    (⟨.read (.parse client), some host_port⟩ : Event (signature A W)) ∈ events →
    0 < M ∧ ∃ front last content, incoming.results = front ++ [last] ∧
      front.foldl (Parser.Handler.takes M) (.listening []) = .listening content ∧
      Parser.Handler.takes M (.listening content) last =
        .finished host_port incoming.content.length

section Parsing

variable {M : ℕ} {client : File} {events : List (Event (signature A W))} {incoming : Incoming}

theorem fits_of_inRoom {content : Bytes} {results : List ReadResult}
    (room : inRoom M content results = true) : Parser.Fits M content results := by
  induction results generalizing content with
  | nil =>
      intro front data back same
      simp at same
  | cons result rest ih =>
      intro front data back same less
      cases front with
      | nil =>
          obtain ⟨rfl, rfl⟩ := List.cons.inj same
          have bound := of_decide_eq_true (Bool.and_eq_true_iff.mp room).1
          simpa [Parser.received] using bound
      | cons first front =>
          obtain ⟨rfl, rfl⟩ := List.cons.inj same
          cases result with
          | bytes first =>
              have later := ih (Bool.and_eq_true_iff.mp room).2 front data back rfl
              simp only [Parser.received, List.flatMap_cons, ← List.append_assoc] at less later ⊢
              exact later less
          | again | error => exact ih room front data back rfl less

theorem decided_of_read {host_port : HostPort}
    (member : (⟨.read (.parse client), some host_port⟩ : Event (signature A W)) ∈ events) :
    (.decided, client) ∈ stages events :=
  List.mem_filterMap.mpr ⟨_, member, rfl⟩

/-- Other operations do not change where a parser stands. -/
theorem Parsing.other {o : Op A W} {r : o.Res} (parsing : Parsing M client events incoming)
    (other : o ≠ .read (.parse client)) : Parsing M client (events ++ [⟨o, r⟩]) incoming := by
  refine ⟨parsing.fits, ?_, ?_⟩
  · intro undecided
    apply parsing.listening
    intro decided
    apply undecided
    rw [stages_append]
    exact List.mem_append_left _ decided
  · intro host_port member
    rcases List.mem_append.mp member with member | last
    · exact parsing.finished host_port member
    · cases List.mem_singleton.mp last
      exact absurd rfl other

/-- A new handler has not read anything. -/
theorem parsing_new (undecided : (.decided, client) ∉ stages events) :
    Parsing M client events {} := by
  refine ⟨?_, fun _ => rfl, ?_⟩
  · intro front data back same
    simp at same
  · intro host_port member
    exact absurd (decided_of_read member) undecided

/-- A call of `Read` goes on where the last one has stopped. -/
theorem Parsing.read {content : Bytes} {results : List ReadResult} {value : Option HostPort}
    (parsing : Parsing M client events incoming)
    (undecided : (.decided, client) ∉ stages events)
    (fits : Parser.Fits M incoming.content results)
    (returned : Parser.read M incoming.content results = .returned value content []) :
    Parsing M client (events ++ [⟨.read (.parse client), value⟩])
      ⟨content, incoming.results ++ results⟩ := by
  have listening := parsing.listening undecided
  have received : incoming.content = Parser.received incoming.results :=
    Parser.foldl_listening listening
  unfold Parser.read at returned
  split at returned
  · rename_i room
    obtain ⟨front, last, middle, rfl, before, took⟩ := Parser.readLoop_takes returned
    have whole : (incoming.results ++ front).foldl (Parser.Handler.takes M) (.listening []) =
        .listening middle := by
      rw [List.foldl_append, listening]
      exact before
    refine ⟨?_, ?_, ?_⟩
    · apply parsing.fits.append
      rw [List.nil_append, ← received]
      exact fits
    · intro still
      cases value with
      | none =>
          rw [← List.append_assoc, List.foldl_append, whole]
          exact took
      | some host_port =>
          apply absurd _ still
          rw [stages_append]
          exact List.mem_append_right _ (List.mem_singleton_self _)
    · intro host_port member
      rcases List.mem_append.mp member with member | same
      · exact absurd (decided_of_read member) undecided
      · cases List.mem_singleton.mp same
        refine ⟨Nat.zero_lt_of_lt room, incoming.results ++ front, last, middle, ?_, whole, took⟩
        exact (List.append_assoc ..).symm
  · cases returned

/-- The results are those of a request: the last one has decided, and none before. -/
theorem Parsing.served {host_port : HostPort} (parsing : Parsing M client events incoming)
    (member : (⟨.read (.parse client), some host_port⟩ : Event (signature A W)) ∈ events) :
    0 < M ∧ ∃ front last content, incoming.results = front ++ [last] ∧
      Parser.served M front = .listening content ∧
      Parser.served M (front ++ [last]) = .finished host_port incoming.content.length := by
  obtain ⟨positive, front, last, content, whole, before, took⟩ := parsing.finished host_port member
  have fits := parsing.fits
  rw [whole] at fits
  refine ⟨positive, front, last, content, whole, ?_, ?_⟩
  · rw [Parser.served_eq positive fits.of_append]
    exact before
  · rw [Parser.served_eq positive fits, List.foldl_append, before]
    exact took

theorem Parsing.requested {allowed_ports : Finset HostPort} {host_port : HostPort}
    (parsing : Parsing M client events incoming)
    (member : (⟨.read (.parse client), some host_port⟩ : Event (signature A W)) ∈ events)
    (passes : onParsed allowed_ports host_port = .resolves host_port) :
    Requested M allowed_ports host_port := by
  obtain ⟨_, front, last, _, whole, _, finished⟩ := parsing.served member
  have fits := parsing.fits
  rw [whole] at fits
  exact ⟨front ++ [last], _, fits, finished, passes⟩

theorem Parsing.isRequest {host_port : HostPort} (parsing : Parsing M client events incoming)
    (member : (⟨.read (.parse client), some host_port⟩ : Event (signature A W)) ∈ events)
    (named : host_port ≠ []) : Parser.IsRequest M incoming.results host_port := by
  obtain ⟨positive, front, last, content, whole, before, finished⟩ := parsing.served member
  have fits := parsing.fits
  rw [whole] at fits ⊢
  exact Parser.isRequest_of_last positive fits before named finished

end Parsing

section Kept

variable {opt : Options} {k : Kernel W} {capacity : LoopId → ℕ} {M : ℕ}
  {getaddrinfo : Bytes → Bytes → List A → Prop} {s t : Heard A W} {o : Op A W}
  {e : Reply A W × List ReadResult} {r : o.Res}

theorem parsing_kept (obeyed : Throughout Obeys s.1.2) (obeys : Obeys s.1.2 ⟨o, r⟩)
    (parsing : ∀ client, Parsing M client s.1.2 (s.2 client))
    (heard : hears M o e.1 e.2 s.2 = some t.2)
    (ran : exec opt k o e.1 s.1.1 = some (r, t.1.1)) (client : File) :
    Parsing M client (s.1.2 ++ [⟨o, r⟩]) (t.2 client) := by
  have stays : hears M o e.1 e.2 s.2 = some s.2 →
      o ≠ .read (.parse client) → Parsing M client (s.1.2 ++ [⟨o, r⟩]) (t.2 client) := by
    intro same other
    rw [← Option.some.inj (same.symm.trans heard)]
    exact (parsing client).other other
  cases o with
  | new eh =>
      cases eh with
      | parse c =>
          have made : Function.update s.2 c {} = t.2 := Option.some.inj heard
          rw [← made]
          by_cases mine : client = c
          · subst mine
            rw [Function.update_self]
            have undecided : (.decided, client) ∉ stages s.1.2 := by
              intro decided
              have added := passed_before obeyed rfl decided
              exact At.not_next rfl obeys (passed_before obeyed rfl added)
            exact (parsing_new undecided).other (by simp)
          · rw [Function.update_of_ne mine]
            exact (parsing client).other (by simp)
      | connect server c => exact stays rfl (by simp)
  | read eh =>
      cases eh with
      | parse c =>
          obtain ⟨reply, results⟩ := e
          cases reply with
          | request value =>
              obtain ⟨rfl, _⟩ := some_ran ran
              simp only [hears] at heard
              split at heard
              · rename_i answer content returned
                split at heard
                · rename_i admitted
                  obtain ⟨rfl, room⟩ := admitted
                  rw [← Option.some.inj heard]
                  by_cases mine : client = c
                  · subst mine
                    rw [Function.update_self]
                    exact (parsing client).read obeys.2 (fits_of_inRoom room) returned
                  · rw [Function.update_of_ne mine]
                    apply (parsing client).other
                    rintro ⟨⟩
                    exact mine rfl
                · cases heard
              · cases heard
          | nothing | fd | ok | task | addresses | event | timeout | link | tick => cases ran
      | connect server c => exact stays rfl (by simp)
  | add eh | remove eh => cases eh <;> exact stays rfl (by simp)
  | accept =>
      apply stays
      · cases e.1 <;> rfl
      · simp
  | _ => exact stays rfl (by simp)

/-- A name that was given to the resolver was read from a client, and it passed the filter. -/
theorem requested_of_resolve {s t : Heard A W} {host_port : HostPort} {cb : Callback} {call : ℕ}
    (routed : Routed opt t.1) (parsing : ∀ client, Parsing M client t.1.2 (t.2 client))
    (ran : Ran opt k s.1.1 (.resolve host_port cb) call t.1.1)
    (history : t.1.2 = s.1.2 ++ [⟨.resolve host_port cb, call⟩]) :
    Requested M opt.allowed_ports host_port := by
  have issued : cb ∈ t.1.1.dns.issued := by
    rw [(ran_resolve ran).2.2]
    exact List.mem_append_right _ (List.mem_singleton_self cb)
  have resolved : (⟨.resolve host_port cb, call⟩ : Event (signature A W)) ∈ t.1.2 := by
    rw [history]
    exact List.mem_append_right _ (List.mem_singleton_self _)
  obtain ⟨host, agrees⟩ := routed.hosts
  obtain ⟨request, rfl, made, passes⟩ := routed.asked cb issued
  have asked := agrees _ _ _ (made.subset (.tail _ (.tail _ (.head _))))
  rw [agrees _ _ _ resolved] at asked
  rw [asked]
  exact (parsing request.client).requested (made.subset (.tail _ (.head _))) passes

theorem filtered_kept (routed : Routed opt t.1)
    (parsing : ∀ client, Parsing M client t.1.2 (t.2 client)) (looks : LooksUp getaddrinfo o e s)
    (ran : exec opt k o e.1 s.1.1 = some (r, t.1.1)) (history : t.1.2 = s.1.2 ++ [⟨o, r⟩])
    (before : Dns.ReachableIf opt.dns (Filtered M opt.allowed_ports getaddrinfo) s.1.1.dns) :
    Dns.ReachableIf opt.dns (Filtered M opt.allowed_ports getaddrinfo) t.1.1.dns := by
  by_cases ends : ∃ j, o = .returnResolve j
  · obtain ⟨j, rfl⟩ := ends
    obtain ⟨reply, results⟩ := e
    cases reply with
    | addresses addr =>
        obtain ⟨dns, moved, same⟩ := dnsStep_eq (dnsStep_ran ran).1
        rw [same]
        exact .move before ⟨.returnResolve j addr, looks, moved⟩
    | nothing | fd | ok | request | task | event | timeout | link | tick => cases ran
  · rcases ran_dns (exec_cases ran) with same | ⟨a, stepped, called, looked⟩
    · rwa [same]
    · refine .move before ⟨a, ?_, stepped⟩
      cases a with
      | call host_port cb =>
          obtain rfl := called host_port cb rfl
          exact requested_of_resolve routed parsing (exec_cases ran) history
      | returnResolve j addr => exact absurd ⟨j, looked j addr rfl⟩ ends
      | _ => trivial

/-- Each link has a pair of the forwarder. -/
theorem pairs_kept {s t : Shared A W} (ran : Ran opt k s o r t)
    (before : Forwarder.Reachable k opt.forwarder s.forwarder)
    (pairs : s.links.length = s.forwarder.pairs.length) :
    Forwarder.Reachable k opt.forwarder t.forwarder ∧
      t.links.length = t.forwarder.pairs.length := by
  cases ran with
  | forward pops stepped =>
      refine ⟨.move before ⟨_, trivial, stepped⟩, ?_⟩
      have made := (congrArg (· + 1) pairs).trans (length_of_pops pops stepped).symm
      exact List.length_append.trans made
  | link quiet stepped =>
      refine ⟨.move before ⟨_, trivial, stepped⟩, ?_⟩
      exact pairs.trans (length_of_quiet quiet stepped).symm
  | resolve stepped | lockCall stepped | scheduleCall stepped | answerCall stepped | start stepped
  | lockWorker stepped | returnResolve stepped | readClock stepped | lockRecord stepped
  | callback stepped | relock stepped | schedule stepped | tick stepped =>
      obtain ⟨_, _, rfl⟩ := dnsStep_eq stepped
      exact ⟨before, pairs⟩
  | accept opened | socket opened =>
      obtain ⟨_, _, rfl⟩ := open_eq opened
      exact ⟨before, pairs⟩
  | _ => exact ⟨before, pairs⟩

end Kept

/-- The parsers stand where their clients have brought them, the resolver has been asked for what
they have read, and the forwarder has a pair for each link. -/
structure Coherent (opt : Options) (k : Kernel W) (M : ℕ)
    (getaddrinfo : Bytes → Bytes → List A → Prop) (s : Heard A W) : Prop where
  parsing : ∀ client, Parsing M client s.1.2 (s.2 client)
  dns : Dns.ReachableIf opt.dns (Filtered M opt.allowed_ports getaddrinfo) s.1.1.dns
  forwarder : Forwarder.Reachable k opt.forwarder s.1.1.forwarder
  pairs : s.1.1.links.length = s.1.1.forwarder.pairs.length

/-- How the server of a link is connected. -/
def connecting (addr : Cursor A) (client server : File) : List (Event (signature A W)) :=
  [⟨.socket addr, some server⟩, ⟨.connect server addr, true⟩, ⟨.sockError server, true⟩,
    ⟨.forward client server, ()⟩]

section Tunnels

variable {opt : Options} {k : Kernel W} {capacity : LoopId → ℕ} {M : ℕ}
  {getaddrinfo : Bytes → Bytes → List A → Prop}
  {s : Programs.State (signature A W) Thread (Heard A W)}

theorem history_of_served (run : Served opt k capacity M getaddrinfo s) :
    History opt k capacity s.forget :=
  reachable_observed (fun _ initial => initial.2) run

theorem coherent_of_served (run : Served opt k capacity M getaddrinfo s) :
    Coherent opt k M getaddrinfo s.shared := by
  refine observed_invariant (fun _ initial => initial.2)
    (fun s : Recorded A W => Throughout Obeys s.2 ∧ Routed opt s)
    (fun s run => ⟨obeyed_of_history run, routed_of_history run⟩) ?_ ?_ run
  · rintro ⟨⟨⟨⟨shared, events⟩, incoming⟩, holder, pipes⟩, threads⟩
      ⟨rfl, rfl, clock, forwarder, initial, same⟩
    cases same
    refine ⟨fun _ => parsing_new (by simp [stages]), .start ⟨clock, rfl⟩, .start initial, ?_⟩
    obtain ⟨_, _, _, rfl⟩ := initial
    rfl
  · rintro s t o e r ⟨obeyed, _⟩ ⟨after, routed⟩ coherent looks heard ran
    obtain ⟨ran, history⟩ := recorded_exec ran
    have obeys : Obeys s.1.2 ⟨o, r⟩ := after s.1.2 ⟨o, r⟩ [] history
    have parsing : ∀ client, Parsing M client t.1.2 (t.2 client) := by
      intro client
      rw [history]
      exact parsing_kept obeyed obeys coherent.parsing heard ran client
    obtain ⟨forwarder, pairs⟩ := pairs_kept (exec_cases ran) coherent.forwarder coherent.pairs
    exact ⟨parsing, filtered_kept routed parsing looks ran history coherent.dns, forwarder, pairs⟩

/-- Every link of the forwarder is what its client has asked for. What the parser has read from the
client is a request, all of it and nothing else; the port in the request is allowed; the server is
connected to an address that `getaddrinfo` has returned for the host and the port in the request;
and the pair of the link takes what comes after the request to the server, and back. -/
theorem requests_tunneled (filled : opt.allowed_ports ≠ ∅)
    (clean : ∀ port ∈ opt.allowed_ports, 0 ∉ port)
    (run : Served opt k capacity M getaddrinfo s) {i : ℕ} {client server : File}
    (link : s.shared.1.1.links[i]? = some (client, server)) :
    ∃ (host_port service : Bytes) (addr : Cursor A),
      Parser.IsRequest M (s.shared.2 client).results host_port ∧
      checkedPort host_port = some service ∧ service ∈ opt.allowed_ports ∧
      getaddrinfo (host_port.takeWhile (· != colon)) service addr.items ∧
      Happened (connecting addr client server) s.shared.1 ∧
      ∃ p, s.shared.1.1.forwarder.pairs[i]? = some p ∧ (p.linked = true → p.Transparent) := by
  have coherent := coherent_of_served run
  have routed : Routed opt s.shared.1 := routed_of_history (history_of_served run)
  obtain ⟨r, ⟨rfl, rfl⟩, taken⟩ := routed.links _ (List.mem_of_getElem? link)
  have happened : Happened r.events s.shared.1 := taken.happened
  obtain ⟨_, named, allowed⟩ := PortFilter.allowed_of_resolves taken.passes
  have agree := PortFilter.agree_of_allowed filled clean allowed
  obtain ⟨host, agrees⟩ := routed.hosts
  obtain ⟨b, given, mine, addr⟩ := taken.answered
  have source : PortFilter.Sound getaddrinfo r.host_port (some r.addr) := by
    have asked := agrees _ _ _ (happened.subset (.tail _ (.tail _ (.head _))))
    obtain ⟨key, _⟩ := Dns.source_of_answer (routed.named host agrees) given addr
    rw [mine, asked] at key
    have told := (PortFilter.sourced_of_reachable coherent.dns).given b given
    exact told.sound key addr ((Dns.noStale_of_reachable routed.dns).given b given)
  obtain ⟨name, service, arguments, answered⟩ := source r.addr rfl
  obtain ⟨inside, checked, same⟩ := agree name service arguments
  rw [same] at answered
  refine ⟨r.host_port, service, r.addr, ?_, checked, inside, answered, ?_, ?_⟩
  · exact (coherent.parsing r.client).isRequest (happened.subset (.tail _ (.head _))) named
  · exact (List.sublist_append_right _ _).trans happened
  · have known : i < s.shared.1.1.forwarder.pairs.length := by
      rw [← coherent.pairs]
      exact (List.getElem?_eq_some_iff.mp link).1
    refine ⟨s.shared.1.1.forwarder.pairs[i], List.getElem?_eq_getElem known, fun linked => ?_⟩
    obtain ⟨temps, safe⟩ := Forwarder.safe_of_reachable k coherent.forwarder
    exact (safe.intact (List.getElem?_eq_getElem known) linked).passesOn

end Tunnels

section Examples

/-- `getaddrinfo`, when only port 1 of the host `"a"` has an address. -/
def onlyA (host service : Bytes) (items : List ℕ) : Prop :=
  host = [0x61] ∧ service = [0x31] ∧ items = oneAddress.1

/-- `"CONNECT a:1\r\n\r\n"` -/
def requestA : Bytes := Parser.kConnectPrefix ++ [0x61, 0x3A, 0x31] ++ Parser.terminator

variable {W : Type}

/-- The clients send `requestA`. -/
def told : Action (signature ℕ W) Thread (Reply ℕ W) →
    Action (signature ℕ W) Thread (Reply ℕ W × List ReadResult)
  | .run t (.request host_port) => .run t (.request host_port, [.bytes requestA])
  | .run t e => .run t (e, [])
  | .pop l => .pop l
  | .wake t e => .wake t (e, [])

/-- It is not the end of a lookup. -/
def noLookup : Action (signature ℕ W) Thread (Reply ℕ W × List ReadResult) → Bool
  | .run _ (.addresses _, _) => false
  | _ => true

theorem fine_of_noLookup {getaddrinfo : Bytes → Bytes → List ℕ → Prop}
    {a : Action (signature ℕ W) Thread (Reply ℕ W × List ReadResult)} (other : noLookup a = true)
    (s : Programs.State (signature ℕ W) Thread (Heard ℕ W)) : Fine (LooksUp getaddrinfo) s a := by
  cases a with
  | run t e =>
      intro o next _
      obtain ⟨reply, results⟩ := e
      cases reply with
      | addresses addr => cases other
      | _ => cases o <;> trivial
  | pop | wake => trivial

/-- A proxy that reads requests of at most 64 bytes. -/
def hearing : System (signature ℕ (Watched Forwarder.Bytes)) Thread
    (Heard ℕ (Watched Forwarder.Bytes))
    (Reply ℕ (Watched Forwarder.Bytes) × List ReadResult) :=
  (recording ℕ onePort Forwarder.eager.watched fun _ => 1).observed (hears 64)

/-- The tunnel, up to the end of the lookup. -/
def asked : Programs.State (signature ℕ (Watched Forwarder.Bytes)) Thread
    (Heard ℕ (Watched Forwarder.Bytes)) :=
  (Runs.replay (step hearing) { unused with shared := ((unused.shared, []), fun _ => {}) }
    ((tunnel.take 29).map told)).get (by decide +kernel)

theorem asked_run : Served onePort Forwarder.eager.watched (fun _ => 1) 64 onlyA asked := by
  have silent : ((tunnel.take 29).map told).all noLookup = true := by decide +kernel
  refine Runs.replay_reachable_of _ (fun a member => fine_of_noLookup ?_) ?_ (Option.some_get _).symm
  · exact List.all_eq_true.mp silent a member
  · exact .start ⟨rfl, rfl, 0, _, ⟨_, _, _, rfl⟩, rfl⟩

def answered : Programs.State (signature ℕ (Watched Forwarder.Bytes)) Thread
    (Heard ℕ (Watched Forwarder.Bytes)) :=
  (step hearing asked (.run (.worker 0) (.addresses (some oneAddress), []))).get
    (by decide +kernel)

theorem answered_run : Served onePort Forwarder.eager.watched (fun _ => 1) 64 onlyA answered := by
  refine .move asked_run ⟨.run (.worker 0) (.addresses (some oneAddress), []), ?_,
    (Option.some_get _).symm⟩
  intro o next _
  cases o with
  | returnResolve j =>
      intro it host_port _ key
      have keys : asked.shared.1.1.dns.nodes.map Dns.Node.key = [[0x61, 0x3A, 0x31]] := by
        decide +kernel
      obtain ⟨n, found, rfl⟩ := Option.map_eq_some_iff.mp key
      have member := List.mem_map_of_mem (f := Dns.Node.key) (List.mem_of_getElem? found)
      rw [keys] at member
      rw [List.mem_singleton.mp member]
      exact .resolved rfl ⟨rfl, rfl, rfl⟩
  | _ => trivial

def served : Programs.State (signature ℕ (Watched Forwarder.Bytes)) Thread
    (Heard ℕ (Watched Forwarder.Bytes)) :=
  (Runs.replay (step hearing) answered ((tunnel.drop 30).map told)).get (by decide +kernel)

theorem served_run : Served onePort Forwarder.eager.watched (fun _ => 1) 64 onlyA served := by
  have silent : ((tunnel.drop 30).map told).all noLookup = true := by decide +kernel
  refine Runs.replay_reachable_of _ (fun a member => fine_of_noLookup ?_) answered_run
    (Option.some_get _).symm
  exact List.all_eq_true.mp silent a member

theorem requests_tunneled_served : ∃ (host_port service : Bytes) (addr : Cursor ℕ),
    Parser.IsRequest 64 (served.shared.2 ⟨5, 0⟩).results host_port ∧
    checkedPort host_port = some service ∧ service ∈ onePort.allowed_ports ∧
    onlyA (host_port.takeWhile (· != colon)) service addr.items ∧
    Happened (connecting addr ⟨5, 0⟩ ⟨6, 1⟩) served.shared.1 ∧
    ∃ p, served.shared.1.1.forwarder.pairs[0]? = some p ∧ (p.linked = true → p.Transparent) :=
  requests_tunneled (by decide) (by decide) served_run (i := 0) (by decide +kernel)

end Examples

end Hcproxy.Proxy