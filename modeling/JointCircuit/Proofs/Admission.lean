/-
JointCircuit.Proofs.Admission — who is let in, and to which place.

Connections come in at any time, some of them with nothing proper to say,
and their greetings end in any order. What the listener makes of it is
told by the list of proper greetings in the order in which they ended
(`Listener.claims`, §2): the place of a party holds the first connection
that claimed its id, and the listener is done once every id was claimed
(`Listener.reached_listen`). A party of a mesh listens and dials at the
same time (§3). When it is done, its channels are in party order, and
none is missing but that to itself (`Mesh.reached_connect`).

Main statement: `Mesh.first_callers_admitted`.
-/
import JointCircuit.Transport.Mesh
import Mathlib.Data.List.Induction

namespace JointCircuit

/-! ## §1 Steps -/

namespace Standing

variable {ε σ ρ α : Type}

theorem run_concat (step : σ → α → Standing ε σ ρ) (standing : Standing ε σ ρ) (events : List α)
    (event : α) : run step standing (events ++ [event])
      = (run step standing events).next step event := by
  rw [run, List.foldl_append]
  rfl

end Standing

/-- Where nothing is missing, everything is there. -/
theorem map_some_filterMap {α : Type} {xs : List (Option α)} (h : xs.all Option.isSome) :
    (xs.filterMap id).map some = xs := by
  induction xs with
  | nil => rfl
  | cons x xs ih =>
    rw [List.all_cons, Bool.and_eq_true] at h
    obtain ⟨a, rfl⟩ := Option.isSome_iff_exists.mp h.1
    exact congrArg (some a :: ·) (ih h.2)

theorem none_mem_of_not_all {α : Type} {xs : List (Option α)} (h : ¬ xs.all Option.isSome) :
    none ∈ xs := by
  rw [List.all_eq_true] at h
  push Not at h
  obtain ⟨x, hx, hnone⟩ := h
  rwa [Option.not_isSome_iff_eq_none.mp hnone] at hx

/-! ## §2 The listener -/

namespace Listener

section Places

variable {σ : Type} {lower : Nat}

/-- The proper greetings of the parties `1..=lower`, as ids and connections, in the order in which
they ended. -/
def claims (lower : Nat) (events : List (Event σ)) : List (Nat × σ) :=
  events.filterMap fun
    | .greeted connection line => (Greeting.receive lower line).toOption.map (·, connection)
    | _ => none

/-- The places of the parties `1..=lower`: the first connection that claimed the id, if any. -/
def seats (lower : Nat) (claims : List (Nat × σ)) : List (Option σ) :=
  (List.range lower).map fun i => claims.lookup (i + 1)

/-- A stream for each of the parties `1..=lower`: the one that claimed the id first. -/
structure Seated (lower : Nat) (claims : List (Nat × σ)) (streams : List σ) : Prop where
  length : streams.length = lower
  stream : ∀ id, 0 < id → id ≤ lower → ∃ connection, claims.lookup id = some connection
    ∧ streams[id - 1]? = some connection

theorem claims_append (lower : Nat) (events later : List (Event σ)) :
    claims lower (events ++ later) = claims lower events ++ claims lower later :=
  List.filterMap_append

theorem claims_arrival (lower : Nat) (connection : σ) : claims lower [.arrival connection] = [] :=
  rfl

theorem claims_of_error {line : Line} {cause : ConnectError}
    (h : Greeting.receive lower line = .error cause) (connection : σ) :
    claims lower [.greeted connection line] = [] := by
  simp [claims, h, Except.toOption]

theorem claims_of_ok {line : Line} {party : Nat} (h : Greeting.receive lower line = .ok party)
    (connection : σ) : claims lower [.greeted connection line] = [(party, connection)] := by
  simp [claims, h, Except.toOption]

/-- A claim is a whole greeting of one of the parties that could be answered. -/
theorem mem_claims {events : List (Event σ)} {id : Nat} {connection : σ} :
    (id, connection) ∈ claims lower events ↔ ∃ line, .greeted connection line ∈ events
      ∧ (∃ rest, line.bytes = Greeting.encode id ++ rest) ∧ 0 < id ∧ id ≤ lower
      ∧ id < Bytes.capacity 4 ∧ line.broken = none := by
  rw [claims, List.mem_filterMap]
  constructor
  · rintro ⟨event, hevent, hclaim⟩
    cases event with
    | greeted other line =>
      dsimp only at hclaim
      cases hreceive : Greeting.receive lower line with
      | error cause =>
        rw [hreceive] at hclaim
        cases hclaim
      | ok party =>
        rw [hreceive] at hclaim
        cases hclaim
        exact ⟨line, hevent, Greeting.receive_eq_ok.mp hreceive⟩
    | arrival other => cases hclaim
    | breakdown cause => cases hclaim
  · rintro ⟨line, hevent, hline⟩
    refine ⟨_, hevent, ?_⟩
    dsimp only
    rw [Greeting.receive_eq_ok.mpr hline]
    rfl

theorem length_seats (lower : Nat) (claims : List (Nat × σ)) :
    (seats lower claims).length = lower := by
  rw [seats, List.length_map, List.length_range]

theorem getElem?_seats {claims : List (Nat × σ)} {i : Nat} (hi : i < lower) :
    (seats lower claims)[i]? = some (claims.lookup (i + 1)) := by
  rw [seats, List.getElem?_map, List.getElem?_range hi, Option.map_some]

/-- A later claim of an id that was claimed changes nothing. -/
theorem seats_concat_of_some {claims : List (Nat × σ)} {party : Nat} {held connection : σ}
    (h : claims.lookup party = some held) :
    seats lower (claims ++ [(party, connection)]) = seats lower claims := by
  refine List.map_congr_left fun i _ => ?_
  rw [List.lookup_append]
  by_cases hparty : i + 1 = party
  · rw [hparty, h, Option.some_or]
  · rw [List.lookup_cons, beq_false_of_ne hparty, List.lookup_nil, Option.or_none]

/-- The first claim of an id fills its place, and no other. -/
theorem seats_concat_of_none {claims : List (Nat × σ)} {party : Nat} {connection : σ}
    (hpos : 0 < party) (hlower : party ≤ lower) (h : claims.lookup party = none) :
    seats lower (claims ++ [(party, connection)])
      = (seats lower claims).set (party - 1) (some connection) := by
  refine List.ext_getElem? fun i => ?_
  by_cases hi : i < lower
  · rw [getElem?_seats hi, List.lookup_append, List.getElem?_set, length_seats]
    by_cases hparty : i + 1 = party
    · rw [hparty, h, if_pos (by omega), if_pos (by omega), List.lookup_cons_self, Option.none_or]
    · rw [if_neg (by omega), getElem?_seats hi, List.lookup_cons, beq_false_of_ne hparty,
        List.lookup_nil, Option.or_none]
  · rw [List.getElem?_eq_none (by rw [length_seats]; omega),
      List.getElem?_eq_none (by rw [List.length_set, length_seats]; omega)]

/-- Places that are all filled stay as they are. -/
theorem seats_append_of_filled {claims : List (Nat × σ)} {streams : List σ}
    (h : seats lower claims = streams.map some) (later : List (Nat × σ)) :
    seats lower (claims ++ later) = streams.map some := by
  rw [← h]
  refine List.map_congr_left fun i hi => ?_
  have hseat : (seats lower claims)[i]? = some (claims.lookup (i + 1)) :=
    getElem?_seats (List.mem_range.mp hi)
  rw [h, List.getElem?_map] at hseat
  obtain ⟨connection, -, hconnection⟩ := Option.map_eq_some_iff.mp hseat
  rw [List.lookup_append, ← hconnection, Option.some_or]

theorem seated_of_seats {claims : List (Nat × σ)} {streams : List σ}
    (h : seats lower claims = streams.map some) : Seated lower claims streams where
  length := by rw [← length_seats lower claims, h, List.length_map]
  stream id hpos hlower := by
    have hseat : (seats lower claims)[id - 1]? = some (claims.lookup (id - 1 + 1)) :=
      getElem?_seats (by omega)
    rw [h, List.getElem?_map, Nat.sub_add_cancel hpos] at hseat
    obtain ⟨connection, hstream, hconnection⟩ := Option.map_eq_some_iff.mp hseat
    exact ⟨connection, hconnection.symm, hstream⟩

theorem mem_of_lookup {claims : List (Nat × σ)} {id : Nat} {connection : σ}
    (h : claims.lookup id = some connection) : (id, connection) ∈ claims := by
  obtain ⟨before, later, rfl, -⟩ := List.lookup_eq_some_iff.mp h
  exact List.mem_append_right _ List.mem_cons_self

theorem Seated.exists_claim {claims : List (Nat × σ)} {streams : List σ}
    (h : Seated lower claims streams) {id : Nat} (hpos : 0 < id) (hlower : id ≤ lower) :
    ∃ connection, (id, connection) ∈ claims := by
  obtain ⟨connection, hclaim, -⟩ := h.stream id hpos hlower
  exact ⟨connection, mem_of_lookup hclaim⟩

end Places

variable {σ : Type} [DecidableEq σ] {lower : Nat} {events : List (Event σ)} {event : Event σ}

/-- The connections that are in their greetings after an event. -/
def Event.follow (greeting : List σ) : Event σ → List σ
  | .arrival connection => greeting ++ [connection]
  | .greeted connection _ => greeting.erase connection
  | .breakdown _ => greeting

/-- Only a connection that came in, and whose greeting is not over, comes to its end. -/
def Event.possible (greeting : List σ) : Event σ → Bool
  | .greeted connection _ => decide (connection ∈ greeting)
  | _ => true

/-- The connections that are in their greetings after these events. -/
def underway (events : List (Event σ)) : List σ :=
  events.foldl Event.follow []

/-- Everything happens when it can, where these connections are in their greetings at first. -/
def orderly : List σ → List (Event σ) → Bool
  | _, [] => true
  | greeting, event :: rest => event.possible greeting && orderly (event.follow greeting) rest

theorem orderly_concat {greeting : List σ} : orderly greeting (events ++ [event])
    = (orderly greeting events && event.possible (events.foldl Event.follow greeting)) := by
  induction events generalizing greeting with
  | nil => simp [orderly]
  | cons first rest ih => rw [List.cons_append, orderly, ih, orderly, Bool.and_assoc]; rfl

theorem underway_concat : underway (events ++ [event]) = event.follow (underway events) := by
  rw [underway, List.foldl_append]
  rfl

/-- What the listener has come to, told by the claims so far. -/
def Reached (lower : Nat) (events : List (Event σ)) :
    Standing ConnectError (Listener σ) (List σ) → Prop
  | .waiting l => l = ⟨seats lower (claims lower events), underway events⟩
    ∧ none ∈ seats lower (claims lower events)
  | .done streams => seats lower (claims lower events) = streams.map some
  | .failed cause => .breakdown cause ∈ events

/-- An event that fills no place. -/
theorem reached_of_seats_eq
    (hseats : seats lower (claims lower (events ++ [event])) = seats lower (claims lower events))
    (hnone : none ∈ seats lower (claims lower events)) : Reached lower (events ++ [event])
      (.waiting ⟨seats lower (claims lower events), event.follow (underway events)⟩) := by
  refine ⟨?_, by rwa [hseats]⟩
  rw [hseats, underway_concat]

/-- One event, in whatever state the claims so far have led to. -/
theorem reached_step (hpossible : event.possible (underway events))
    (hnone : none ∈ seats lower (claims lower events)) :
    Reached lower (events ++ [event])
      (step ⟨seats lower (claims lower events), underway events⟩ event) := by
  cases event with
  | arrival connection =>
    refine reached_of_seats_eq ?_ hnone
    rw [claims_append, claims_arrival, List.append_nil]
  | breakdown cause => exact List.mem_append_right _ List.mem_cons_self
  | greeted connection line =>
    simp only [step, length_seats]
    rw [if_pos (of_decide_eq_true hpossible)]
    cases hreceive : Greeting.receive lower line with
    | error cause =>
      refine reached_of_seats_eq ?_ hnone
      rw [claims_append, claims_of_error hreceive, List.append_nil]
    | ok party =>
      have hclaims : claims lower (events ++ [.greeted connection line])
          = claims lower events ++ [(party, connection)] := by
        rw [claims_append, claims_of_ok hreceive]
      obtain ⟨-, hpos, hlower, -⟩ := Greeting.receive_eq_ok.mp hreceive
      have hplace : (seats lower (claims lower events))[party - 1]?
          = some ((claims lower events).lookup (party - 1 + 1)) := getElem?_seats (by omega)
      rw [Nat.sub_add_cancel hpos] at hplace
      cases hlookup : (claims lower events).lookup party with
      | some held =>
        -- The place is taken, so the newcomer is dropped.
        simp only [hplace, hlookup]
        refine reached_of_seats_eq ?_ hnone
        rw [hclaims, seats_concat_of_some hlookup]
      | none =>
        have hseats : seats lower (claims lower events ++ [(party, connection)])
            = (seats lower (claims lower events)).set (party - 1) (some connection) :=
          seats_concat_of_none hpos hlower hlookup
        simp only [hplace, hlookup, fill, ← hseats]
        split
        · rename_i hall
          rw [Reached, hclaims, map_some_filterMap hall]
        · rename_i hall
          rw [Reached, hclaims, underway_concat]
          exact ⟨rfl, none_mem_of_not_all hall⟩

/-- Events in any order lead where the claims among them lead. -/
theorem reached_listen (horderly : orderly [] events) :
    Reached lower events (listen lower (.ok ()) events) := by
  induction events using List.reverseRecOn with
  | nil =>
    by_cases hlower : lower = 0
    · subst hlower
      rfl
    · have hstart : listen (σ := σ) lower (.ok ()) [] = .waiting (new lower) := if_neg hlower
      rw [hstart]
      have hseats : seats lower (claims lower ([] : List (Event σ))) = List.replicate lower none :=
        List.map_eq_replicate_iff.mpr (fun _ _ => rfl) |>.trans (by rw [List.length_range])
      exact ⟨by rw [hseats]; rfl, by rw [hseats]; exact List.mem_replicate.mpr ⟨hlower, rfl⟩⟩
  | append_singleton events event ih =>
    rw [orderly_concat, Bool.and_eq_true] at horderly
    specialize ih horderly.1
    rw [listen, Standing.run_concat]
    change Reached lower events (Standing.run step (start lower (.ok ())) events) at ih
    cases hsofar : Standing.run step (start lower (.ok ())) events with
    | waiting l =>
      rw [hsofar] at ih
      obtain ⟨rfl, hnone⟩ := ih
      exact reached_step horderly.2 hnone
    | done streams =>
      rw [hsofar] at ih
      change seats lower (claims lower (events ++ [event])) = streams.map some
      rw [claims_append]
      exact seats_append_of_filled ih _
    | failed cause =>
      rw [hsofar] at ih
      exact List.mem_append_left _ ih

theorem seated_of_done (horderly : orderly [] events) {streams : List σ}
    (h : listen lower (.ok ()) events = .done streams) :
    Seated lower (claims lower events) streams := by
  have hreached : Reached lower events (listen lower (.ok ()) events) := reached_listen horderly
  rw [h] at hreached
  exact seated_of_seats hreached

theorem breakdown_of_failed (horderly : orderly [] events) {cause : ConnectError}
    (h : listen lower (.ok ()) events = .failed cause) : .breakdown cause ∈ events := by
  have hreached : Reached lower events (listen lower (.ok ()) events) := reached_listen horderly
  rwa [h] at hreached

/-- The listener is done as soon as there is a claim of every id. -/
theorem exists_done (horderly : orderly [] events) (hevents : ∀ cause, .breakdown cause ∉ events)
    (hclaims : ∀ id, 0 < id → id ≤ lower → ∃ connection, (id, connection) ∈ claims lower events) :
    ∃ streams, listen lower (.ok ()) events = .done streams := by
  cases h : listen lower (.ok ()) events with
  | done streams => exact ⟨streams, rfl⟩
  | failed cause => exact absurd (breakdown_of_failed horderly h) (hevents cause)
  | waiting l =>
    have hreached : Reached lower events (listen lower (.ok ()) events) := reached_listen horderly
    rw [h] at hreached
    obtain ⟨i, hi, hnone⟩ := List.mem_map.mp hreached.2
    obtain ⟨connection, hclaim⟩ := hclaims (i + 1) (Nat.succ_pos i) (List.mem_range.mp hi)
    have := List.lookup_eq_none_iff.mp hnone _ hclaim
    simp at this

end Listener

/-! ## §3 A party -/

namespace Mesh

variable {σ : Type}

/-- What happens where a party listens. -/
def calls (events : List (Event σ)) : List (Listener.Event σ) :=
  events.filterMap fun
    | .listening event => some event
    | .dialed _ _ => none

/-- The higher party at an index has answered properly. -/
def Answered (events : List (Event σ)) (index : Nat) : Prop :=
  ∃ line, .dialed index line ∈ events ∧ Greeting.send line = .ok ()

/-- The channels of a party: to each lower party over the connection that claimed its id first, to
each higher one over that to its address, from where a proper answer came, and none to itself. -/
structure Wired (config : NetworkConfig) (party : Nat) (events : List (Event σ))
    (channels : List (Option (Channel σ))) : Prop where
  length : channels.length = config.parties
  lower : ∀ id, 0 < id → id < party → ∃ connection,
    (Listener.claims (party - 1) (calls events)).lookup id = some connection
    ∧ channels[id - 1]? = some (some (.accepted connection))
  own : channels[party - 1]? = some none
  higher : ∀ id, party < id → id ≤ config.parties → Answered events (id - party - 1)
    ∧ ∃ address, config.addresses[id - 1]? = some address
      ∧ channels[id - 1]? = some (some (.dialed address))

/-- Why a party gives up: nobody can be let in any more, or a higher party does not answer as it
should. -/
def GivesUp (events : List (Event σ)) (fault : TransportError) : Prop :=
  ∃ cause, fault = .connect cause ∧ (.listening (.breakdown cause) ∈ events
    ∨ ∃ index line, .dialed index line ∈ events ∧ Greeting.send line = .error cause)

theorem calls_append (events later : List (Event σ)) :
    calls (events ++ later) = calls events ++ calls later :=
  List.filterMap_append

theorem calls_concat_listening (events : List (Event σ)) (event : Listener.Event σ) :
    calls (events ++ [.listening event]) = calls events ++ [event] :=
  calls_append events _

theorem calls_concat_dialed (events : List (Event σ)) (index : Nat) (line : Line) :
    calls (events ++ [.dialed index line]) = calls events :=
  (calls_append events _).trans (List.append_nil _)

theorem mem_calls {events : List (Event σ)} {event : Listener.Event σ} :
    event ∈ calls events ↔ .listening event ∈ events := by
  rw [calls, List.mem_filterMap]
  constructor
  · rintro ⟨e, he, hevent⟩
    cases e with
    | listening => cases hevent; exact he
    | dialed => cases hevent
  · exact fun h => ⟨_, h, rfl⟩

theorem answered_concat_listening {events : List (Event σ)} {event : Listener.Event σ}
    {index : Nat} : Answered (events ++ [.listening event]) index ↔ Answered events index := by
  simp [Answered]

/-- A peer answers for itself only. -/
theorem answered_concat_dialed_of_ne {events : List (Event σ)} {index other : Nat} {line : Line}
    (hne : index ≠ other) :
    Answered (events ++ [.dialed index line]) other ↔ Answered events other := by
  simp [Answered, Ne.symm hne]

theorem Answered.append {events : List (Event σ)} {index : Nat} (h : Answered events index)
    (later : List (Event σ)) : Answered (events ++ later) index := by
  obtain ⟨line, hline, hsend⟩ := h
  exact ⟨line, List.mem_append_left _ hline, hsend⟩

section Arrange

variable {α : Type} (lower higher : List α)

theorem length_arrange : (arrange lower higher).length = lower.length + 1 + higher.length := by
  simp [arrange]
  omega

theorem getElem?_arrange_lower {i : Nat} (hi : i < lower.length) :
    (arrange lower higher)[i]? = some lower[i]? := by
  rw [arrange, List.append_assoc, List.getElem?_append_left (by rwa [List.length_map]),
    List.getElem?_map, List.getElem?_eq_getElem hi]
  rfl

theorem getElem?_arrange_own : (arrange lower higher)[lower.length]? = some none := by
  have hlength : (lower.map some).length = lower.length := List.length_map _
  rw [arrange, List.append_assoc, List.getElem?_append_right (Nat.le_of_eq hlength), hlength,
    Nat.sub_self]
  rfl

theorem getElem?_arrange_higher (i : Nat) :
    (arrange lower higher)[lower.length + 1 + i]? = higher[i]?.map some := by
  have hlength : (lower.map some ++ [none]).length = lower.length + 1 := by simp
  rw [arrange, List.getElem?_append_right (by omega), hlength, Nat.add_sub_cancel_left,
    List.getElem?_map]

/-- Arranged like this, channels are a transport: at no other position one is missing. -/
theorem transport_arrange :
    transport (arrange lower higher) (lower.length + 1) = .ok (arrange lower higher) := by
  have hnone : Channels.firstMissing? ((arrange lower higher).map Option.isSome)
      (lower.length + 1) = none := by
    rw [Channels.firstMissing?, Option.map_eq_none_iff, List.find?_eq_none]
    rintro ⟨present, peer⟩ hmem hmissing
    obtain ⟨hpos, hpresent⟩ := List.mk_mem_zipIdx_iff_le_and_getElem?_sub.mp hmem
    simp only [Bool.and_eq_true, decide_eq_true_eq, Bool.not_eq_true'] at hmissing
    obtain ⟨hpeer, rfl⟩ := hmissing
    rw [List.getElem?_map] at hpresent
    rcases Nat.lt_or_ge (peer - 1) lower.length with hi | hi
    · rw [getElem?_arrange_lower lower higher hi, List.getElem?_eq_getElem hi] at hpresent
      cases hpresent
    · obtain ⟨i, hi⟩ : ∃ i, peer - 1 = lower.length + 1 + i :=
        ⟨peer - 1 - lower.length - 1, by omega⟩
      rw [hi, getElem?_arrange_higher] at hpresent
      cases hhigher : higher[i]? <;> rw [hhigher] at hpresent <;> cases hpresent
  rw [transport, hnone]

end Arrange

variable {config : NetworkConfig} {party : Nat} {events : List (Event σ)}

/-- The streams of the lower parties and the addresses of the higher ones, as they are arranged. -/
theorem wired_arrange {streams : List σ} {addresses : List Address} (hparty : 0 < party)
    (hparties : party ≤ config.parties)
    (hstreams : Listener.Seated (party - 1) (Listener.claims (party - 1) (calls events)) streams)
    (hlength : addresses.length = config.parties - party)
    (haddresses : ∀ i < addresses.length, config.addresses[party + i]? = addresses[i]?
      ∧ Answered events i) :
    Wired config party events (arrange (streams.map .accepted) (addresses.map .dialed)) where
  length := by
    rw [length_arrange, List.length_map, List.length_map, hstreams.length, hlength]
    omega
  lower id hpos hid := by
    obtain ⟨connection, hclaim, hstream⟩ := hstreams.stream id hpos (by omega)
    have hi : id - 1 < (streams.map (Channel.accepted (σ := σ))).length := by
      rw [List.length_map, hstreams.length]
      omega
    refine ⟨connection, hclaim, ?_⟩
    rw [getElem?_arrange_lower _ _ hi, List.getElem?_map, hstream]
    rfl
  own := by
    have hown := getElem?_arrange_own (streams.map Channel.accepted) (addresses.map .dialed)
    rwa [List.length_map, hstreams.length] at hown
  higher id hid hids := by
    have hi : id - party - 1 < addresses.length := by omega
    obtain ⟨haddress, hanswered⟩ := haddresses _ hi
    rw [List.getElem?_eq_getElem hi, show party + (id - party - 1) = id - 1 by omega] at haddress
    refine ⟨hanswered, addresses[id - party - 1], haddress, ?_⟩
    have hhigher := getElem?_arrange_higher (streams.map Channel.accepted)
      (addresses.map .dialed) (id - party - 1)
    rw [List.length_map, hstreams.length, List.getElem?_map, List.getElem?_eq_getElem hi,
      show party - 1 + 1 + (id - party - 1) = id - 1 by omega] at hhigher
    exact hhigher

/-- What happens later leaves the channels alone. -/
theorem Wired.append {channels : List (Option (Channel σ))}
    (h : Wired config party events channels) (later : List (Event σ)) :
    Wired config party (events ++ later) channels where
  length := h.length
  lower id hpos hid := by
    obtain ⟨connection, hclaim, hchannel⟩ := h.lower id hpos hid
    refine ⟨connection, ?_, hchannel⟩
    rw [calls_append, Listener.claims_append, List.lookup_append, hclaim, Option.some_or]
  own := h.own
  higher id hid hids := (h.higher id hid hids).imp_left (·.append later)

theorem GivesUp.append {fault : TransportError} (h : GivesUp events fault)
    (later : List (Event σ)) : GivesUp (events ++ later) fault := by
  obtain ⟨cause, rfl, hbreakdown | ⟨index, line, hline, hsend⟩⟩ := h
  · exact ⟨cause, rfl, .inl (List.mem_append_left _ hbreakdown)⟩
  · exact ⟨cause, rfl, .inr ⟨index, line, List.mem_append_left _ hline, hsend⟩⟩

theorem Wired.exists_claim {channels : List (Option (Channel σ))}
    (h : Wired config party events channels) {id : Nat} (hpos : 0 < id) (hid : id < party) :
    ∃ connection, (id, connection) ∈ Listener.claims (party - 1) (calls events) := by
  obtain ⟨connection, hclaim, -⟩ := h.lower id hpos hid
  exact ⟨connection, Listener.mem_of_lookup hclaim⟩

variable [DecidableEq σ]

/-- A party on its way that has gone along with these events. -/
structure Follows (config : NetworkConfig) (party : Nat) (events : List (Event σ))
    (j : Joining σ) : Prop where
  listener : j.listener = Listener.listen (party - 1) (.ok ()) (calls events)
  length : j.dials.length = config.parties - party
  answered : ∀ i address, j.dials[i]? = some (some address) →
    config.addresses[party + i]? = some address ∧ Answered events i
  unanswered : ∀ i, j.dials[i]? = some none → ¬ Answered events i

/-- What a party has come to. -/
def Reached (config : NetworkConfig) (party : Nat) (events : List (Event σ)) :
    Standing TransportError (Joining σ) (List (Option (Channel σ))) → Prop
  | .waiting j => Follows config party events j ∧ j.outcome party = .waiting j
  | .done channels => Wired config party events channels
  | .failed fault => GivesUp events fault

theorem reached_outcome (hparty : 0 < party) (hparties : party ≤ config.parties)
    (horderly : Listener.orderly [] (calls events)) {j : Joining σ}
    (h : Follows config party events j) : Reached config party events (j.outcome party) := by
  cases hlistener : j.listener with
  | failed cause =>
    have hbreakdown := Listener.breakdown_of_failed horderly (h.listener.symm.trans hlistener)
    simp only [Joining.outcome, hlistener]
    exact ⟨cause, rfl, .inl (mem_calls.mp hbreakdown)⟩
  | waiting l =>
    have houtcome : j.outcome party = .waiting j := by simp only [Joining.outcome, hlistener]
    rw [houtcome]
    exact ⟨h, houtcome⟩
  | done streams =>
    have hseated := Listener.seated_of_done horderly (h.listener.symm.trans hlistener)
    by_cases hall : j.dials.all Option.isSome
    · have hdials := map_some_filterMap hall
      obtain ⟨addresses, haddresses⟩ : ∃ addresses, j.dials.filterMap id = addresses := ⟨_, rfl⟩
      rw [haddresses] at hdials
      have htransport := transport_arrange (streams.map Channel.accepted) (addresses.map .dialed)
      rw [List.length_map, hseated.length, Nat.sub_add_cancel hparty] at htransport
      simp only [Joining.outcome, hlistener, if_pos hall, haddresses, htransport]
      refine wired_arrange hparty hparties hseated ?_ fun i hi => ?_
      · rw [← h.length, ← hdials, List.length_map]
      · rw [List.getElem?_eq_getElem hi]
        refine h.answered i _ ?_
        rw [← hdials, List.getElem?_map, List.getElem?_eq_getElem hi, Option.map_some]
    · have houtcome : j.outcome party = .waiting j := by
        simp only [Joining.outcome, hlistener, if_neg hall]
      rw [houtcome]
      exact ⟨h, houtcome⟩

/-- What happens where the party listens is passed on to the listener. -/
theorem Follows.listening {j : Joining σ} (h : Follows config party events j)
    (event : Listener.Event σ) : Follows config party (events ++ [.listening event])
      { j with listener := j.listener.next Listener.step event } where
  listener := by
    rw [calls_concat_listening, Listener.listen, Standing.run_concat, h.listener]
    rfl
  length := h.length
  answered i address hi := (h.answered i address hi).imp_right (·.append _)
  unanswered i hi hanswered := h.unanswered i hi (answered_concat_listening.mp hanswered)

/-- A proper answer fills the position of its peer. -/
theorem Follows.dialed {j : Joining σ} (h : Follows config party events j)
    (hparties : party ≤ config.parties) {index : Nat} {line : Line}
    (hindex : j.dials[index]? = some none) (hsend : Greeting.send line = .ok ()) :
    Follows config party (events ++ [.dialed index line])
      { j with dials := j.dials.set index config.addresses[party + index]? } where
  listener := by rw [calls_concat_dialed, h.listener]
  length := by rw [List.length_set, h.length]
  answered i address hi := by
    rw [List.getElem?_set] at hi
    split at hi
    · rename_i hsame
      subst hsame
      split at hi
      · exact ⟨Option.some.inj hi, line, List.mem_append_right _ List.mem_cons_self, hsend⟩
      · cases hi
    · exact (h.answered i address hi).imp_right (·.append _)
  unanswered i hi := by
    obtain ⟨hlt, -⟩ := List.getElem?_eq_some_iff.mp hindex
    rw [h.length] at hlt
    rw [List.getElem?_set] at hi
    split at hi
    · rename_i hsame
      -- There is an address for the index, so the position is not empty any more.
      subst hsame
      split at hi
      · have hnone := List.getElem?_eq_none_iff.mp (Option.some.inj hi)
        rw [← NetworkConfig.parties] at hnone
        omega
      · cases hi
    · rename_i hne
      rw [answered_concat_dialed_of_ne hne]
      exact h.unanswered i hi

/-- An answer from a peer whose position is not empty means nothing. -/
theorem Follows.ignored {j : Joining σ} (h : Follows config party events j) {index : Nat}
    (hindex : j.dials[index]? ≠ some none) (line : Line) :
    Follows config party (events ++ [.dialed index line]) j where
  listener := by rw [calls_concat_dialed, h.listener]
  length := h.length
  answered i address hi := (h.answered i address hi).imp_right (·.append _)
  unanswered i hi := by
    have hne : index ≠ i := fun hsame => hindex (hsame ▸ hi)
    rw [answered_concat_dialed_of_ne hne]
    exact h.unanswered i hi

/-- An event, in whatever state the events so far have led to. -/
theorem reached_step (hparty : 0 < party) (hparties : party ≤ config.parties) {event : Event σ}
    (horderly : Listener.orderly [] (calls (events ++ [event]))) {j : Joining σ}
    (h : Reached config party events (.waiting j)) :
    Reached config party (events ++ [event]) (j.step config party event) := by
  obtain ⟨hfollows, hwaiting⟩ := h
  cases event with
  | listening event => exact reached_outcome hparty hparties horderly (hfollows.listening event)
  | dialed index line =>
    simp only [Joining.step]
    split
    · rename_i hdial
      cases hsend : Greeting.send line with
      | error cause =>
        exact ⟨cause, rfl, .inr ⟨index, line, List.mem_append_right _ List.mem_cons_self, hsend⟩⟩
      | ok _ =>
        exact reached_outcome hparty hparties horderly (hfollows.dialed hparties hdial hsend)
    · rename_i hdial
      exact ⟨hfollows.ignored hdial line, hwaiting⟩

theorem orderly_calls_of_concat {event : Event σ}
    (h : Listener.orderly [] (calls (events ++ [event]))) :
    Listener.orderly [] (calls events) := by
  cases event with
  | listening event =>
    rw [calls_concat_listening, Listener.orderly_concat, Bool.and_eq_true] at h
    exact h.1
  | dialed index line => rwa [calls_concat_dialed] at h

/-- Events in any order lead where the claims and the answers among them lead. -/
theorem reached_connect (hparty : 0 < party) (hparties : party ≤ config.parties)
    (horderly : Listener.orderly [] (calls events)) :
    Reached config party events (connect config party (.ok ()) events) := by
  induction events using List.reverseRecOn with
  | nil =>
    have hstart : connect (σ := σ) config party (.ok ()) [] = Joining.outcome party
        { listener := Listener.start (party - 1) (.ok ())
          dials := List.replicate (config.parties - party) none } := if_neg (by omega)
    rw [hstart]
    refine reached_outcome hparty hparties horderly ⟨rfl, List.length_replicate, ?_, ?_⟩
    · intro i address hi
      cases List.eq_of_mem_replicate (List.mem_of_getElem? hi)
    · rintro i - ⟨line, hline, -⟩
      cases hline
  | append_singleton events event ih =>
    specialize ih (orderly_calls_of_concat horderly)
    rw [connect, Standing.run_concat, ← connect]
    cases hsofar : connect config party (.ok ()) events with
    | waiting j =>
      rw [hsofar] at ih
      exact reached_step hparty hparties horderly ih
    | done channels =>
      rw [hsofar] at ih
      exact Wired.append ih [event]
    | failed fault =>
      rw [hsofar] at ih
      exact GivesUp.append ih [event]

/-- A party is done as soon as there is a claim of every lower id and an answer of every higher
party. -/
theorem exists_connected (hparty : 0 < party) (hparties : party ≤ config.parties)
    (horderly : Listener.orderly [] (calls events)) (hevents : ∀ fault, ¬ GivesUp events fault)
    (hclaims : ∀ id, 0 < id → id < party →
      ∃ connection, (id, connection) ∈ Listener.claims (party - 1) (calls events))
    (hanswered : ∀ id, party < id → id ≤ config.parties → Answered events (id - party - 1)) :
    ∃ channels, connect config party (.ok ()) events = .done channels := by
  have hreached := reached_connect hparty hparties horderly
  cases h : connect config party (.ok ()) events with
  | done channels => exact ⟨channels, rfl⟩
  | failed fault =>
    rw [h] at hreached
    exact absurd hreached (hevents fault)
  | waiting j =>
    rw [h] at hreached
    obtain ⟨hfollows, hwaiting⟩ := hreached
    obtain ⟨streams, hstreams⟩ : ∃ streams,
        Listener.listen (party - 1) (.ok ()) (calls events) = .done streams :=
      Listener.exists_done horderly
        (fun cause hcause => hevents _ ⟨cause, rfl, .inl (mem_calls.mp hcause)⟩)
        fun id hpos hid => hclaims id hpos (by omega)
    have hall : j.dials.all Option.isSome := by
      rw [List.all_eq_true]
      intro dial hdial
      obtain ⟨i, hi⟩ := List.mem_iff_getElem?.mp hdial
      cases dial with
      | some address => rfl
      | none =>
        obtain ⟨hlt, -⟩ := List.getElem?_eq_some_iff.mp hi
        rw [hfollows.length] at hlt
        refine absurd ?_ (hfollows.unanswered i hi)
        have := hanswered (party + i + 1) (by omega) (by omega)
        rwa [show party + i + 1 - party - 1 = i by omega] at this
    -- With all streams and all dials, what has been reached is not a standstill.
    simp only [Joining.outcome, hfollows.listener, hstreams, if_pos hall] at hwaiting
    split at hwaiting <;> cases hwaiting

/-- Whatever connections come in, and in whatever order their greetings end, a listener lets in
those that it waits for. It fails only if nobody can be let in any more; otherwise it is done once
each of the ids has been claimed in a proper greeting, and not before, with one stream for each id,
that of the first claim. Since this holds after any events, it is done as soon as the last id is
claimed. A party of a mesh comes to channels to all parties but itself: those to lower parties lead
to who claimed the id first, those to higher ones to the addresses in the list. It does so unless it
has a reason to give up, once all lower ids are claimed and all higher parties have answered. -/
theorem first_callers_admitted (σ : Type) [DecidableEq σ] :
    (∀ (lower : Nat) (events : List (Listener.Event σ)), Listener.orderly [] events →
      (∀ id connection, (id, connection) ∈ Listener.claims lower events ↔
        ∃ line, .greeted connection line ∈ events
          ∧ (∃ rest, line.bytes = Greeting.encode id ++ rest) ∧ 0 < id ∧ id ≤ lower
          ∧ id < Bytes.capacity 4 ∧ line.broken = none)
      ∧ (∀ cause, Listener.listen lower (.ok ()) events = .failed cause →
        .breakdown cause ∈ events)
      ∧ (∀ streams, Listener.listen lower (.ok ()) events = .done streams →
        Listener.Seated lower (Listener.claims lower events) streams)
      ∧ ((∀ cause, .breakdown cause ∉ events) →
        ((∃ streams, Listener.listen lower (.ok ()) events = .done streams)
          ↔ ∀ id, 0 < id → id ≤ lower →
            ∃ connection, (id, connection) ∈ Listener.claims lower events)))
    ∧ ∀ (config : NetworkConfig) (party : Nat) (events : List (Event σ)),
      0 < party → party ≤ config.parties → Listener.orderly [] (calls events) →
      (∀ fault, connect config party (.ok ()) events = .failed fault → GivesUp events fault)
      ∧ (∀ channels, connect config party (.ok ()) events = .done channels →
        Wired config party events channels)
      ∧ ((∀ fault, ¬ GivesUp events fault) →
        ((∃ channels, connect config party (.ok ()) events = .done channels)
          ↔ (∀ id, 0 < id → id < party →
              ∃ connection, (id, connection) ∈ Listener.claims (party - 1) (calls events))
            ∧ ∀ id, party < id → id ≤ config.parties → Answered events (id - party - 1))) := by
  refine ⟨fun lower events horderly => ⟨fun id connection => Listener.mem_claims,
    fun cause => Listener.breakdown_of_failed horderly,
    fun streams => Listener.seated_of_done horderly, fun hevents => ⟨?_, ?_⟩⟩,
    fun config party events hparty hparties horderly => ?_⟩
  · rintro ⟨streams, hstreams⟩ id hpos hlower
    exact (Listener.seated_of_done horderly hstreams).exists_claim hpos hlower
  · exact Listener.exists_done horderly hevents
  · have hreached := reached_connect hparty hparties horderly
    refine ⟨fun fault h => ?_, fun channels h => ?_, fun hevents => ⟨?_, ?_⟩⟩
    · rwa [h] at hreached
    · rwa [h] at hreached
    · rintro ⟨channels, h⟩
      rw [h] at hreached
      exact ⟨fun id => hreached.exists_claim, fun id hid hids => (hreached.higher id hid hids).1⟩
    · rintro ⟨hclaims, hanswered⟩
      exact exists_connected hparty hparties horderly hevents hclaims hanswered

/-- The third of four parties, while connections are made that end early, name no party, name the
listener itself, start with another word, or come second. -/
def crowd : List (Event Nat) :=
  [.listening (.arrival 1), .listening (.arrival 2),
    .listening (.greeted 2 { bytes := [0xde, 0xad] }), .listening (.arrival 3),
    .listening (.arrival 4), .listening (.arrival 5),
    .listening (.greeted 4 { bytes := Greeting.encode 2 }),
    .listening (.greeted 1 { bytes := Greeting.encode 0 }),
    .dialed 0 { bytes := Greeting.answer },
    .listening (.greeted 5 { bytes := Greeting.encode 2 }), .listening (.arrival 6),
    .listening (.arrival 7), .listening (.greeted 6 { bytes := Greeting.encode 3 }),
    .listening (.greeted 3 { bytes := [0, 0, 0, 0, 0, 0, 0, 1] }),
    .listening (.greeted 7 { bytes := Greeting.encode 1 })]

/-- It is done, and not before the last of these events. -/
theorem first_callers_admitted_crowd : Listener.orderly [] (calls crowd)
    ∧ (∃ streams, Listener.listen 2 (.ok ()) (calls crowd) = .done streams
      ∧ Listener.Seated 2 (Listener.claims 2 (calls crowd)) streams)
    ∧ (¬ ∃ streams, Listener.listen 2 (.ok ()) (calls crowd.dropLast) = .done streams)
    ∧ (∃ channels, connect (.localhost 4 48000) 3 (.ok ()) crowd = .done channels)
    ∧ Wired (.localhost 4 48000) 3 crowd
      [some (.accepted 7), some (.accepted 4), none, some (.dialed (.loopback 48003))] := by
  obtain ⟨hlistener, hparty⟩ := first_callers_admitted Nat
  have horderly : Listener.orderly [] (calls crowd) := by decide
  have horderly' : Listener.orderly [] (calls crowd.dropLast) := by decide
  have hclaims : Listener.claims 2 (calls crowd) = [(2, 4), (2, 5), (1, 7)] := by decide
  have hclaims' : Listener.claims 2 (calls crowd.dropLast) = [(2, 4), (2, 5)] := by decide
  have hbreakdown : ∀ cause, .breakdown cause ∉ calls crowd := by
    intro cause
    simp [calls, crowd]
  have hbreakdown' : ∀ cause, .breakdown cause ∉ calls crowd.dropLast := by
    intro cause
    simp [calls, crowd]
  have hclaimed : ∀ id, 0 < id → id ≤ 2 →
      ∃ connection, (id, connection) ∈ Listener.claims 2 (calls crowd) := by
    intro id hpos hid
    rw [hclaims]
    obtain rfl | rfl : id = 1 ∨ id = 2 := by omega
    · exact ⟨7, by decide⟩
    · exact ⟨4, by decide⟩
  have hgoesOn : ∀ fault, ¬ GivesUp crowd fault := by
    rintro fault ⟨cause, -, hcause | ⟨index, line, hline, hsend⟩⟩
    · exact hbreakdown cause (mem_calls.mpr hcause)
    · obtain ⟨-, rfl⟩ : index = 0 ∧ line = { bytes := Greeting.answer } := by
        simpa [crowd] using hline
      cases hsend.symm.trans (show Greeting.send { bytes := Greeting.answer } = .ok () by decide)
  have hanswered : Answered crowd 0 := ⟨{ bytes := Greeting.answer }, by simp [crowd], by decide⟩
  obtain ⟨-, -, hseated, hdone⟩ := hlistener 2 (calls crowd) horderly
  obtain ⟨-, -, -, hdone'⟩ := hlistener 2 (calls crowd.dropLast) horderly'
  obtain ⟨-, hwired, hready⟩ := hparty (.localhost 4 48000) 3 crowd (by decide) (by decide) horderly
  refine ⟨horderly, ?_, ?_, ?_, hwired _ (by decide +kernel)⟩
  · obtain ⟨streams, hstreams⟩ := (hdone hbreakdown).mpr hclaimed
    exact ⟨streams, hstreams, hseated streams hstreams⟩
  · intro hearly
    obtain ⟨connection, hfirst⟩ := (hdone' hbreakdown').mp hearly 1 (by decide) (by decide)
    rw [hclaims'] at hfirst
    simp at hfirst
  · refine (hready hgoesOn).mpr ⟨fun id hpos hid => hclaimed id hpos (by omega), ?_⟩
    intro id hid hids
    obtain rfl : id = 4 := Nat.le_antisymm hids hid
    exact hanswered

end Mesh

end JointCircuit
