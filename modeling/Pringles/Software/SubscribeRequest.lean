import Pringles.Lib.DottedQuad
import Pringles.Software.ReceiverThreads

/-!
# The subscribers of the software switch

`subscribe_request` enters the subscribers into one list, or into the list of their stream. It is the
only thread that writes these lists. Together with the way of a packet to the thread this says what
the lists are in every run: the subscriptions that have come in up to some point, in their order, and
while `end_thread` is not set it can become all of them (`subscribed_once`).
-/

namespace Pringles.Software

open Bytes

/-! ## The packet -/

/-- `struct ring_subscribe_entry`. -/
structure RingSubscribeEntry where
  gIdx : BitVec 32
  streamId : BitVec 32
  subscribe : BitVec 32
  clientIp : BitVec 32
  recvPort : BitVec 16

/-- There are two bytes behind `recv_port`. -/
def RingSubscribeEntry.bytes (h : RingSubscribeEntry) : List Byte :=
  bytes32 h.gIdx ++ bytes32 h.streamId ++ bytes32 h.subscribe ++ bytes32 h.clientIp ++
    bytes16 h.recvPort ++ [0, 0]

namespace LogClient

/-- `sub_type_hdr`. The number of entries is cut off from a word in network byte order. -/
def subTypeHdr (c : LogClient) : RingType where
  type := htons ethSubscribeEntry
  numEntries := (htonl 1).truncate 16
  shardId := 0
  cid := htonl (c.cid.truncate 32)
  switchToProcess := 0

/-- `sub_entry_hdr`; `subscribe` sets `g_idx`, and `subscribe_stream` sets `stream_id`. -/
def subEntryHdr (c : LogClient) (gIdx streamId : BitVec 32) : RingSubscribeEntry where
  gIdx := gIdx
  streamId := streamId
  subscribe := 0
  clientIp := c.selfClientIp
  recvPort := htons c.recvPort

/-- The packet of `wait_for_subscribe` and of `wait_for_stream_subscribe`. -/
def subscribePacket (c : LogClient) (gIdx streamId : BitVec 32) : List Byte :=
  c.subTypeHdr.bytes ++ (c.subEntryHdr gIdx streamId).bytes

end LogClient

/-- What a subscription asks for. -/
structure Subscription where
  streamId : BitVec 32
  clientIp : String
  recvPort : String

namespace Subscription

/-- The subscription in a packet. -/
def ofPacket (buf : List Byte) : Subscription where
  streamId := ntohl (SubscribeEntry.streamId buf)
  clientIp := DottedQuad.inetNtop (SubscribeEntry.clientIp buf)
  recvPort := (ntohs (SubscribeEntry.recvPort buf)).toNat.repr

def entry (s : Subscription) : List String := [s.clientIp, s.recvPort]

/-- The switch finds what the client has put into the packet. -/
theorem ofPacket_subscribePacket (c : LogClient) (gIdx streamId : BitVec 32) :
    ofPacket (c.subscribePacket gIdx (htonl streamId)) =
      ⟨streamId, DottedQuad.inetNtop c.selfClientIp, c.recvPort.toNat.repr⟩ := by
  simp only [ofPacket, SubscribeEntry.streamId, SubscribeEntry.clientIp, SubscribeEntry.recvPort,
    LogClient.subscribePacket, sizeofRingType, RingType.bytes, RingSubscribeEntry.bytes,
    List.append_assoc, load16_skip16, load16_skip32, load32_skip16, load32_skip32, load16_bytes16,
    load32_bytes32, LogClient.subEntryHdr, ntohl_htonl, ntohs_htons]

end Subscription

/-! ## The lists -/

/-- `subscribe_stor` and `stream_subscribe_stor`. -/
structure Subscribers where
  subscribeStor : List (List String) := []
  streamSubscribeStor : BitVec 32 → Option (List (List String)) := fun _ => none

namespace Subscribers

/-- `LogSoftwareSwitch::store_sub`. As no other thread inserts, an insertion behind a search that has
failed succeeds. -/
def storeSub (useStreams : Bool) (s : Subscribers) (clientIp recvPort : String)
    (streamId : BitVec 32) : Bool × Subscribers :=
  let entry := [clientIp, recvPort]
  if useStreams then
    match s.streamSubscribeStor streamId with
    | some stored =>
      (true, { s with streamSubscribeStor :=
        Function.update s.streamSubscribeStor streamId (some (stored ++ [entry])) })
    | none =>
      (true, { s with streamSubscribeStor :=
        Function.update s.streamSubscribeStor streamId (some [entry]) })
  else (true, { s with subscribeStor := s.subscribeStor ++ [entry] })

/-- The body of the loop of `LogSoftwareSwitch::subscribe_request`, with the copy that it has taken. -/
def subscribeRequest (useStreams : Bool) (s : Subscribers) (recv : List Byte) : Subscribers :=
  let streamId := ntohl (SubscribeEntry.streamId recv)
  let clientIp := DottedQuad.inetNtop (SubscribeEntry.clientIp recv)
  if clientIp.length = 0 then s
  else
    (storeSub useStreams s clientIp (ntohs (SubscribeEntry.recvPort recv)).toNat.repr streamId).2

/-- The list of a stream, when there is one. -/
def ofStream (l : List Subscription) (streamId : BitVec 32) : Option (List (List String)) :=
  match l.filter fun s => s.streamId == streamId with
  | [] => none
  | s :: l => some ((s :: l).map Subscription.entry)

/-- The lists of the subscriptions `l`, with streams or without. -/
def ofSubscriptions (useStreams : Bool) (l : List Subscription) : Subscribers :=
  if useStreams then { streamSubscribeStor := ofStream l }
  else { subscribeStor := l.map Subscription.entry }

variable {useStreams : Bool} {l : List Subscription} {sub : Subscription} {recv : List Byte}
  {streamId : BitVec 32}

theorem ofStream_snoc (l : List Subscription) (sub : Subscription) :
    ofStream (l ++ [sub]) = Function.update (ofStream l) sub.streamId
      (some ((ofStream l sub.streamId).getD [] ++ [sub.entry])) := by
  funext streamId
  by_cases h : streamId = sub.streamId
  · subst h
    rw [Function.update_self, ofStream, ofStream, List.filter_append]
    cases l.filter fun s => s.streamId == sub.streamId <;> simp
  · rw [Function.update_of_ne h, ofStream, ofStream, List.filter_append]
    simp [Ne.symm h]

theorem storeSub_ofSubscriptions (useStreams : Bool) (l : List Subscription) (sub : Subscription) :
    storeSub useStreams (ofSubscriptions useStreams l) sub.clientIp sub.recvPort sub.streamId =
      (true, ofSubscriptions useStreams (l ++ [sub])) := by
  cases useStreams with
  | false => simp [ofSubscriptions, storeSub, Subscription.entry]
  | true =>
    simp only [ofSubscriptions, storeSub, if_true, ofStream_snoc]
    cases ofStream l sub.streamId <;> rfl

theorem subscribeRequest_ofSubscriptions (useStreams : Bool) (l : List Subscription)
    (recv : List Byte) : subscribeRequest useStreams (ofSubscriptions useStreams l) recv =
      ofSubscriptions useStreams (l ++ [.ofPacket recv]) := by
  have hip : ¬ (DottedQuad.inetNtop (SubscribeEntry.clientIp recv)).length = 0 := fun h =>
    DottedQuad.inetNtop_ne_empty _ (String.length_eq_zero_iff.1 h)
  rw [subscribeRequest, if_neg hip]
  exact congrArg Prod.snd (storeSub_ofSubscriptions useStreams l (.ofPacket recv))

theorem foldl_subscribeRequest (useStreams : Bool) (recvs : List (List Byte)) :
    recvs.foldl (subscribeRequest useStreams) {} =
      ofSubscriptions useStreams (recvs.map Subscription.ofPacket) := by
  induction recvs using List.reverseRecOn with
  | nil => cases useStreams <;> rfl
  | append_singleton recvs recv ih =>
    rw [List.foldl_append, ih, List.map_append, List.foldl_cons, List.foldl_nil]
    exact subscribeRequest_ofSubscriptions ..

end Subscribers

namespace ReceiverThreads

/-- The subscription that comes in. -/
def Event.subscription : Event → Option Subscription
  | recvPacket data _ =>
    if ntohs (load16 data 0) = ethSubscribeEntry then some (.ofPacket data) else none
  | _ => none

def subscriptions (es : List Event) : List Subscription := es.filterMap Event.subscription

/-- The lists after a run of the switch. -/
def subscribers (useStreams : Bool) (tr : List (Event × Done)) : Subscribers :=
  (Handoff.handedOver .subQ tr).foldl (Subscribers.subscribeRequest useStreams) {}

/-- The network cuts no subscription off. -/
def Uncut (es : List Event) : Prop := ∀ data behind, .recvPacket data behind ∈ es →
  Framed ethSubscribeEntry (sizeofRingType + sizeofRingSubscribeEntry) data

variable {s s' : ReceiverThreads} {data behind normBuf : List Byte} {es : List Event}
  {tr : List (Event × Done)}

/-- A copy has the fields of the packet. -/
theorem ofPacket_copy (h : sizeofRingType + sizeofRingSubscribeEntry ≤ data.length)
    (behind : List Byte) : Subscription.ofPacket
      (data.take (sizeofRingType + sizeofRingSubscribeEntry) ++ behind) = .ofPacket data := by
  have htake : (data.take (sizeofRingType + sizeofRingSubscribeEntry) ++ behind).take
      (sizeofRingType + sizeofRingSubscribeEntry) =
        data.take (sizeofRingType + sizeofRingSubscribeEntry) := by
    rw [List.take_append_of_le_length, List.take_take, Nat.min_self]
    rw [List.length_take, Nat.min_eq_left h]
  simp only [Subscription.ofPacket, SubscribeEntry.streamId, SubscribeEntry.clientIp,
    SubscribeEntry.recvPort]
  rw [load32_of_take_eq htake (by decide), load32_of_take_eq htake (by decide),
    load16_of_take_eq htake (by decide)]

/-- The subscription in the copy of a datagram. -/
theorem map_copy (h : Framed ethSubscribeEntry (sizeofRingType + sizeofRingSubscribeEntry) data)
    (normBuf behind : List Byte) :
    ((Event.recvPacket data behind).copy .softwareSwitch .subQ normBuf).map Subscription.ofPacket =
      (Event.recvPacket data behind).subscription := by
  rw [copy_of_takes Component.takes_sub (by decide) h, Event.subscription]
  split_ifs with hsub
  · exact congrArg some (ofPacket_copy (h.uncut hsub) behind)
  · rfl

theorem map_copies (h : Uncut es) (normBuf : List Byte) :
    (copies .softwareSwitch .subQ normBuf es).map Subscription.ofPacket = subscriptions es := by
  induction es generalizing normBuf with
  | nil => rfl
  | cons e es ih =>
    have hes : Uncut es := fun data behind hmem =>
      h data behind (List.mem_cons_of_mem _ hmem)
    have hcopy : (e.copy .softwareSwitch .subQ normBuf).map Subscription.ofPacket =
        e.subscription := by
      cases e with
      | recvPacket data behind => exact map_copy (h data behind (.head _)) normBuf behind
      | _ => rfl
    rw [copies, List.map_append, ih hes, subscriptions, subscriptions, List.filterMap_cons, ← hcopy]
    cases e.copy .softwareSwitch .subQ normBuf <;> rfl

/-- **The lists of subscribers.** In every run of the switch without cut datagrams the lists are those
of the subscriptions up to some point, in the order in which they came in, and each of them once.
While `end_thread` is not set, the threads can go on by themselves until all of them are entered. -/
theorem subscribed_once (useStreams : Bool)
    (hr : (machine .softwareSwitch).Run (begin normBuf) tr s)
    (huncut : Uncut (tr.map Prod.fst)) :
    (∃ n, subscribers useStreams tr =
        .ofSubscriptions useStreams ((subscriptions (tr.map Prod.fst)).take n)) ∧
      (s.threads.stop = false → ∃ tr' s', (machine .softwareSwitch).Run s tr' s' ∧
        (∀ x ∈ tr', x.1.Internal) ∧ subscribers useStreams (tr ++ tr') =
          .ofSubscriptions useStreams (subscriptions (tr.map Prod.fst))) := by
  refine ⟨⟨(Handoff.handedOver .subQ tr).length, ?_⟩, fun hstop => ?_⟩
  · rw [← map_copies huncut normBuf, copies_run hr, List.map_append, ← List.length_map,
      List.take_left]
    exact Subscribers.foldl_subscribeRequest ..
  · obtain ⟨tr', s', hr', hint, hall⟩ := exists_processed (k := .subQ) hr (by decide) hstop
    refine ⟨tr', s', hr', hint, ?_⟩
    rw [← map_copies huncut normBuf, ← hall]
    exact Subscribers.foldl_subscribeRequest ..

theorem type_subscribePacket (c : LogClient) (gIdx streamId : BitVec 32) :
    ntohs (load16 (c.subscribePacket gIdx streamId) 0) = ethSubscribeEntry := by
  simp only [LogClient.subscribePacket, RingType.bytes, List.append_assoc, load16_bytes16,
    LogClient.subTypeHdr, ntohs_htons]

/-- A client that subscribes to stream 7. -/
def samplePacket (recvPort : BitVec 16) : List Byte :=
  { LogClient.sampleClient 1 with recvPort := recvPort }.subscribePacket 0 (htonl 7)

def subscribeEvents : List Event := [.receiver, .recvPacket (samplePacket 50000) [], .receiver,
  .receiver, .receiver, .receiver, .recvPacket (samplePacket 50001) []]

/-- Two clients subscribe to a stream, one behind the other. -/
theorem subscribed_once_streams : ∃ tr s, (machine .softwareSwitch).Run (begin []) tr s ∧
    subscriptions (tr.map Prod.fst) = [⟨7, DottedQuad.inetNtop 0x0100000a, (50000).repr⟩,
      ⟨7, DottedQuad.inetNtop 0x0100000a, (50001).repr⟩] ∧
      ∃ tr' s', (machine .softwareSwitch).Run s tr' s' ∧ (∀ x ∈ tr', x.1.Internal) ∧
        subscribers true (tr ++ tr') =
          .ofSubscriptions true [⟨7, DottedQuad.inetNtop 0x0100000a, (50000).repr⟩,
            ⟨7, DottedQuad.inetNtop 0x0100000a, (50001).repr⟩] := by
  have hx : (machine .softwareSwitch).exec (begin []) subscribeEvents = some (_, _) := rfl
  obtain ⟨tr, s, hr, hstop, hevents⟩ : ∃ tr s, (machine .softwareSwitch).Run (begin []) tr s ∧
      s.threads.stop = false ∧ tr.map Prod.fst = subscribeEvents :=
    ⟨_, _, .of_exec hx, rfl, rfl⟩
  have huncut : Uncut (tr.map Prod.fst) := by
    intro data behind hmem
    rw [hevents] at hmem
    simp only [subscribeEvents, List.mem_cons, List.not_mem_nil, or_false, reduceCtorEq, false_or,
      Event.recvPacket.injEq] at hmem
    rcases hmem with ⟨rfl, -⟩ | ⟨rfl, -⟩
    · exact ⟨by decide, fun _ => by decide⟩
    · exact ⟨by decide, fun _ => by decide⟩
  have hsubs : subscriptions (tr.map Prod.fst) =
      [⟨7, DottedQuad.inetNtop 0x0100000a, (50000).repr⟩,
        ⟨7, DottedQuad.inetNtop 0x0100000a, (50001).repr⟩] := by
    rw [hevents]
    simp only [subscribeEvents, subscriptions, List.filterMap_cons, Event.subscription,
      List.filterMap_nil, samplePacket, type_subscribePacket, if_true,
      Subscription.ofPacket_subscribePacket]
    rfl
  obtain ⟨-, hentered⟩ := subscribed_once true hr huncut
  rw [hsubs] at hentered
  exact ⟨tr, s, hr, hsubs, hentered hstop⟩

end ReceiverThreads

end Pringles.Software
