import Mast.BinaryVector.Integers
import Mast.Lib.Fuel
import Mast.Lib.Outcome

/-!
# Packet streams

`Intel_Packet_Player` sends a vector over a ring as packets of eight bits, from the last ones to the first, and puts together what the ring returns. The offset of the next packet is an unsigned number that goes down by the width of a packet, and the loop stops when it is zero: the packet at the offset zero is never sent, and an offset that misses zero is refused by `Slice` only after it has wrapped.
-/

namespace Mast

open BitPacking BinaryVector Fuel Outcome

namespace Intel

def dataWidth : Nat := 8

/-- `SELECT`, `CONTROL` and `DATA`. -/
inductive Opcode
  | select
  | control
  | data
  deriving DecidableEq

structure RingPacket where
  id : BitVec 2
  opcode : Opcode
  data : Byte
  deriving DecidableEq

def firstRegionAddr : Byte := 2

/-- What the player needs to know: a stream for each channel, and one for the reset. -/
structure PacketPlayer where
  nChains : Nat
  regionId : List (BitVec 2)
  sized : regionId.length = nChains + 1

/-- The constructor gives all regions the same stream. -/
def PacketPlayer.ofRegions (regionAddresses : List Nat) : PacketPlayer where
  nChains := regionAddresses.length
  regionId := 0 :: regionAddresses.map fun _ => 1
  sized := by simp

/-- The packets sent so far, and the ring, which returns one packet for each packet. -/
structure Link (σ : Type) where
  ring : σ
  sent : List RingPacket

section Sending

variable {σ : Type} (respond : σ → RingPacket → RingPacket × σ)

/-- `send_packet`, and the `receive_packet` that follows it. -/
def Link.exchange (link : Link σ) (packet : RingPacket) : RingPacket × Link σ :=
  let (answer, ring) := respond link.ring packet
  (answer, ⟨ring, link.sent ++ [packet]⟩)

def Link.exchangeAll (link : Link σ) (packets : List RingPacket) : Link σ :=
  packets.foldl (fun link packet => (link.exchange respond packet).2) link

/-- The region is assigned the stream, and scanning is enabled for it. -/
def preamble (streamId : BitVec 2) : List RingPacket :=
  [⟨streamId, .select, firstRegionAddr⟩, ⟨streamId, .control, 0x10⟩, ⟨streamId, .data, 0x03⟩,
    ⟨streamId, .control, 0x11⟩]

def release : RingPacket := ⟨0, .select, firstRegionAddr⟩

/-- The eight bits at an offset, as the number they write. -/
def packetData (toSutData : BinaryVector) (offset : Nat) : Except Fault Byte := do
  let slice ← toSutData.slice offset dataWidth
  slice.getUnsigned .w8

/-- The loop that sends the data; what the ring returns is put in front of what it returned before. -/
def sendData (streamId : BitVec 2) (toSutData : BinaryVector) :
    (fuel offset : Nat) → List Byte → Link σ → Option (Except Fault (List Byte) × Link σ)
  | 0, _, _, _ => none
  | fuel + 1, offset, nwOrderData, link =>
    if offset = 0 then some (.ok nwOrderData, link)
    else
      match packetData toSutData offset with
      | .error fault => some (.error fault, link)
      | .ok data =>
        let (answer, link) := link.exchange respond ⟨streamId, .data, data⟩
        sendData streamId toSutData fuel ((offset + uint32Size - dataWidth) % uint32Size)
          (answer.data :: nwOrderData) link

def fromNetworkOrder (nwOrderData : List Byte) : Except Fault BinaryVector :=
  build empty (nwOrderData.forM fun byte => append8 byte 8 .right)

/-- `Send_Intel_Packet_Stream`, with what is left of the ring. -/
def sendIntelPacketStream (player : PacketPlayer) (channelId : Nat) (toSutData : BinaryVector)
    (link : Link σ) (fuel : Nat) : Option (Except Fault BinaryVector × Link σ) :=
  if channelId = 0 then some (.ok empty, link)
  else if channelId > player.nChains then
    some (.error (.invalidArgument ("ChannelId must be comprised between \x270\x27 (for Reset) " ++
      "and the total number of chains")), link)
  else
    match player.regionId[channelId]? with
    | none => some (.error .undefinedBehaviour, link)
    | some streamId =>
      let link := link.exchangeAll respond (preamble streamId)
      let offset := (toSutData.usedBits + uint32Size - dataWidth) % uint32Size
      match sendData respond streamId toSutData fuel offset [] link with
      | none => none
      | some (.error fault, link) => some (.error fault, link)
      | some (.ok nwOrderData, link) =>
        match fromNetworkOrder nwOrderData with
        | .error fault => some (.error fault, link)
        | .ok fromSut => some (.ok fromSut, (link.exchange respond release).2)

end Sending

/-! ### What a stream should do -/

/-- The packets carry each bit once, the last ones first; the last packet may be completed. -/
def Carries (payload : List RingPacket) (l : List Bool) : Prop :=
  ∃ padding : List Bool, padding.length < dataWidth ∧
    unpack (payload.reverse.map RingPacket.data) = padding ++ l

/-- A ring that returns the data of data packets as they are. -/
def Echoes {σ : Type} (respond : σ → RingPacket → RingPacket × σ) : Prop :=
  ∀ ring packet, packet.opcode = .data → (respond ring packet).1.data = packet.data

/-- The call ends. It throws before it sends any data, or its packets carry all the data and an echo of them is returned as it was sent. -/
def StreamLaw {σ : Type} (respond : σ → RingPacket → RingPacket × σ) (player : PacketPlayer)
    (channelId : Nat) (toSutData : BinaryVector) (link : Link σ) : Prop :=
  ∃ result link', Ends (sendIntelPacketStream respond player channelId toSutData link) (result, link') ∧
    ((∃ fault streamId sent, result = .error fault ∧ sent <+: preamble streamId ∧
        link'.sent = link.sent ++ sent) ∨
      ∃ fromSut streamId payload, result = .ok fromSut ∧
        link'.sent = link.sent ++ preamble streamId ++ payload ++ [release] ∧
          (∀ packet ∈ payload, packet.opcode = .data) ∧ Carries payload toSutData.bits ∧
            (Echoes respond → fromSut.bits = toSutData.bits))

/-! ### One packet -/

section Packets

variable {v : BinaryVector} (hv : v.Stored)
include hv

theorem packetData_eq {offset : Nat} (hrange : offset + 8 ≤ v.usedBits) :
    ∃ data, packetData v offset = .ok data ∧ byteBits data = (v.bits.drop offset).take 8 := by
  have hlength : ((v.bits.drop offset).take 8).length = 8 := by
    rw [List.length_take, List.length_drop, hv.exactBytes.bits_length]
    omega
  generalize hl : (v.bits.drop offset).take 8 = l at hlength ⊢
  have hslice : v.slice offset dataWidth = .ok (ofBits l .notFixed) := by
    rw [← hl]
    exact slice_eq hv.exactBytes hv.usedBits_lt hrange
  have hget := getUnsigned_eq (v := ofBits l .notFixed) (ofBits_wellFormed _ _).exactBytes
    (by rw [ofBits_usedBits, hlength]; decide) .w8
  refine ⟨BitVec.ofNat 8 (ofBits l .notFixed).unsignedValue, bind_eq_ok.mpr ⟨_, hslice, hget⟩, ?_⟩
  apply List.ext_getElem
  · rw [byteBits_length, hlength]
  · intro i hi hin
    have hlt : i < 8 := by rwa [byteBits_length] at hi
    have hindex : 8 - 1 - (8 - 1 - i) = i := by omega
    have hbit := unsignedValue_ofBits l .notFixed (8 - 1 - i)
    rw [hlength, decide_eq_true (by omega), Bool.true_and, hindex,
      List.getD_eq_getElem?_getD, List.getElem?_eq_getElem hin, Option.getD_some] at hbit
    rw [byteBits_getElem, BitVec.getMsbD_eq_getLsbD, BitVec.getLsbD_ofNat, ← hbit,
      decide_eq_true hlt, decide_eq_true (by omega), Bool.true_and, Bool.true_and]

omit hv in
theorem packetData_refused {offset : Nat} (hout : v.usedBits ≤ offset) :
    ∃ fault, packetData v offset = .error fault := by
  obtain ⟨fault, -, hslice⟩ := slice_rejects (v := v) (show dataWidth ≠ 0 by decide) (.inl hout)
  refine ⟨fault, ?_⟩
  rw [packetData, hslice]
  rfl

end Packets

/-! ### The loop -/

section Loop

variable {σ : Type} {respond : σ → RingPacket → RingPacket × σ} {v : BinaryVector}
  (streamId : BitVec 2)

theorem sendData_zero (fuel : Nat) (nwOrderData : List Byte) (link : Link σ) :
    sendData respond streamId v (fuel + 1) 0 nwOrderData link = some (.ok nwOrderData, link) := by
  rw [sendData, if_pos rfl]

theorem sendData_next {offset : Nat} (hsome : offset ≠ 0) {data : Byte}
    (hdata : packetData v offset = .ok data) (fuel : Nat) (nwOrderData : List Byte) (link : Link σ) :
    sendData respond streamId v (fuel + 1) offset nwOrderData link =
      sendData respond streamId v fuel ((offset + uint32Size - 8) % uint32Size)
        ((link.exchange respond ⟨streamId, .data, data⟩).1.data :: nwOrderData)
        (link.exchange respond ⟨streamId, .data, data⟩).2 := by
  simp only [sendData, if_neg hsome, hdata]
  rfl

theorem sendData_refused {offset : Nat} (hsome : offset ≠ 0) {fault : Fault}
    (hdata : packetData v offset = .error fault) (fuel : Nat) (nwOrderData : List Byte)
    (link : Link σ) :
    sendData respond streamId v (fuel + 1) offset nwOrderData link = some (.error fault, link) := by
  simp only [sendData, if_neg hsome, hdata]

variable (hv : v.Stored)
include hv

/-- The offsets of a whole number of packets lead to zero: the data from the eighth bit on is sent, and received if it is echoed. -/
theorem sendData_whole {count : Nat} (hrange : 8 * (count + 1) ≤ v.usedBits)
    (nwOrderData : List Byte) (link : Link σ) :
    ∃ payload received ring,
      Ends (fun fuel => sendData respond streamId v fuel (8 * count) nwOrderData link)
        (.ok (received ++ nwOrderData), ⟨ring, link.sent ++ payload⟩) ∧
      payload.length = count ∧ received.length = count ∧
      (∀ packet ∈ payload, packet.opcode = .data) ∧
      unpack (payload.reverse.map RingPacket.data) = (v.bits.drop 8).take (8 * count) ∧
      (Echoes respond → received = payload.reverse.map RingPacket.data) := by
  induction count generalizing nwOrderData link with
  | zero =>
    refine ⟨[], [], link.ring, ⟨1, fun fuel hfuel => ?_⟩, rfl, rfl, by simp, ?_, fun _ => rfl⟩
    · obtain ⟨rest, rfl⟩ := Nat.exists_eq_add_of_le' hfuel
      rw [List.append_nil]
      exact sendData_zero streamId rest nwOrderData link
    · rw [Nat.mul_zero, List.take_zero]
      rfl
  | succ count ih =>
    have hsize : uint32Size = 4294967296 := rfl
    have hused := hv.usedBits_lt
    have hoffset : (8 * (count + 1) + uint32Size - 8) % uint32Size = 8 * count := by
      rw [hsize] at *
      omega
    have hin : 8 * (count + 1) + 8 ≤ v.usedBits := by omega
    obtain ⟨data, hdata, hbits⟩ := packetData_eq hv hin
    obtain ⟨payload, received, ring, hends, hlength, hcount, hopcodes, hpayload, hechoed⟩ :=
      ih (by omega) ((link.exchange respond ⟨streamId, .data, data⟩).1.data :: nwOrderData)
        (link.exchange respond ⟨streamId, .data, data⟩).2
    refine ⟨⟨streamId, .data, data⟩ :: payload,
      received ++ [(link.exchange respond ⟨streamId, .data, data⟩).1.data], ring,
      Ends.succ ?_, by rw [List.length_cons, hlength], by
        rw [List.length_append, hcount, List.length_singleton], ?_, ?_, ?_⟩
    · have hsent : (link.exchange respond ⟨streamId, .data, data⟩).2.sent ++ payload =
          link.sent ++ ⟨streamId, .data, data⟩ :: payload := by
        rw [List.append_cons]
        rfl
      rw [List.append_assoc, List.singleton_append, ← hsent]
      refine hends.congr fun fuel => ?_
      rw [sendData_next streamId (by omega) hdata, hoffset]
    · intro packet hpacket
      rcases List.mem_cons.mp hpacket with rfl | hpacket
      · rfl
      · exact hopcodes packet hpacket
    · have hsplit : 8 * (count + 1) = 8 * count + 8 := by omega
      have hindex : 8 + 8 * count = 8 * (count + 1) := by omega
      have hlast : byteBits data = ((v.bits.drop 8).drop (8 * count)).take 8 := by
        rw [hbits, List.drop_drop, hindex]
      rw [List.reverse_cons, List.map_append, unpack_append, hpayload, List.map_singleton,
        unpack_cons, unpack_nil, List.append_nil, hlast, hsplit, List.take_add]
    · intro hechoes
      rw [hechoed hechoes, List.reverse_cons, List.map_append]
      exact congrArg (_ ++ [·]) (hechoes _ _ rfl)

/-- Any other offset passes by zero and wraps: the loop throws after its packets are sent. -/
theorem sendData_wraps {count rest : Nat} (hrest : rest = v.usedBits % 8) (hsome : rest ≠ 0)
    (hrange : 8 * (count + 1) + rest ≤ v.usedBits) (nwOrderData : List Byte) (link : Link σ) :
    ∃ fault link', Ends (fun fuel => sendData respond streamId v fuel (8 * count + rest)
        nwOrderData link) (.error fault, link') ∧
      link'.sent.length = link.sent.length + count + 1 := by
  have hsize : uint32Size = 4294967296 := rfl
  have hused := hv.usedBits_lt
  induction count generalizing nwOrderData link with
  | zero =>
    have hin : rest + 8 ≤ v.usedBits := by omega
    obtain ⟨data, hdata, -⟩ := packetData_eq hv hin
    have hout : v.usedBits ≤ (rest + uint32Size - 8) % uint32Size := by
      rw [hsize] at *
      omega
    have hwrapped : (rest + uint32Size - 8) % uint32Size ≠ 0 := by omega
    obtain ⟨fault, hfault⟩ := packetData_refused hout
    refine ⟨fault, (link.exchange respond ⟨streamId, .data, data⟩).2, ⟨2, fun fuel hfuel => ?_⟩, ?_⟩
    · obtain ⟨more, rfl⟩ := Nat.exists_eq_add_of_le' hfuel
      rw [Nat.mul_zero, Nat.zero_add]
      exact (sendData_next streamId hsome hdata (more + 1) nwOrderData link).trans
        (sendData_refused streamId hwrapped hfault more _ _)
    · exact List.length_append
  | succ count ih =>
    have hin : 8 * (count + 1) + rest + 8 ≤ v.usedBits := by omega
    obtain ⟨data, hdata, -⟩ := packetData_eq hv hin
    have hoffset : (8 * (count + 1) + rest + uint32Size - 8) % uint32Size = 8 * count + rest := by
      rw [hsize] at *
      omega
    obtain ⟨fault, link', hends, hsent⟩ :=
      ih (by omega) ((link.exchange respond ⟨streamId, .data, data⟩).1.data :: nwOrderData)
        (link.exchange respond ⟨streamId, .data, data⟩).2
    refine ⟨fault, link', Ends.succ (hends.congr fun fuel => ?_), ?_⟩
    · rw [sendData_next streamId (by omega) hdata, hoffset]
    · have hone : (link.exchange respond ⟨streamId, .data, data⟩).2.sent.length =
          link.sent.length + 1 := List.length_append
      omega

end Loop

/-! ### The stream -/

theorem fromNetworkOrder_eq {nwOrderData : List Byte} (hbound : 8 * nwOrderData.length < uint32Size) :
    fromNetworkOrder nwOrderData = .ok (ofBits (unpack nwOrderData) .notFixed) := by
  have hrun : ∀ l : List Bool, l.length + 8 * nwOrderData.length < uint32Size →
      (nwOrderData.forM fun byte => append8 byte 8 .right).run (ofBits l .notFixed) =
        .ok () (ofBits (l ++ unpack nwOrderData) .notFixed) := by
    induction nwOrderData with
    | nil =>
      intro l _
      rw [unpack_nil, List.append_nil]
      rfl
    | cons byte rest ih =>
      intro l hl
      rw [List.length_cons] at hl hbound
      have hfirst := append8_byte_ofBits (l := l) (p := .notFixed) (by decide) (by omega) byte .right
      have hrest := ih (by omega) (l ++ byteBits byte)
        (by rw [List.length_append, byteBits_length]; omega)
      change EStateM.run (append8 byte 8 .right >>= fun _ => rest.forM fun byte =>
        append8 byte 8 .right) (ofBits l .notFixed) = _
      simp only [EStateM.run_bind, hfirst, hrest, unpack_cons, List.append_assoc]
  have hall := hrun [] (by rw [List.length_nil]; omega)
  rw [fromNetworkOrder, build, empty_eq_ofBits, hall, List.nil_append]

section Stream

variable {σ : Type} (respond : σ → RingPacket → RingPacket × σ) (player : PacketPlayer)
  {channelId : Nat} {v : BinaryVector} (hv : v.Stored) (link : Link σ)

theorem exchangeAll_sent (packets : List RingPacket) :
    (link.exchangeAll respond packets).sent = link.sent ++ packets := by
  induction packets generalizing link with
  | nil => exact (List.append_nil _).symm
  | cons packet packets ih =>
    have hfirst : (link.exchange respond packet).2.sent = link.sent ++ [packet] := rfl
    rw [Link.exchangeAll, List.foldl_cons, ← Link.exchangeAll, ih, hfirst, List.append_assoc,
      List.singleton_append]

theorem regionId_eq (hchannel : channelId ≤ player.nChains) :
    ∃ streamId, player.regionId[channelId]? = some streamId := by
  have hin : channelId < player.regionId.length := by
    rw [player.sized]
    omega
  exact ⟨_, List.getElem?_eq_getElem hin⟩

theorem sendIntelPacketStream_ends (hsome : channelId ≠ 0) (hchannel : channelId ≤ player.nChains)
    {streamId : BitVec 2} (hstream : player.regionId[channelId]? = some streamId)
    {result : Except Fault (List Byte)} {link' : Link σ}
    (hloop : Ends (fun fuel => sendData respond streamId v fuel
      ((v.usedBits + uint32Size - dataWidth) % uint32Size) []
        (link.exchangeAll respond (preamble streamId))) (result, link')) :
    Ends (sendIntelPacketStream respond player channelId v link)
      (match result with
        | .error fault => (.error fault, link')
        | .ok nwOrderData =>
          match fromNetworkOrder nwOrderData with
          | .error fault => (.error fault, link')
          | .ok fromSut => (.ok fromSut, (link'.exchange respond release).2)) := by
  obtain ⟨enough, hloop⟩ := hloop
  refine ⟨enough, fun fuel hfuel => ?_⟩
  have hrun := hloop fuel hfuel
  simp only [sendIntelPacketStream, if_neg hsome, if_neg (Nat.not_lt.mpr hchannel), hstream, hrun]
  cases result with
  | error fault => rfl
  | ok nwOrderData =>
    simp only
    cases fromNetworkOrder nwOrderData with
    | error fault => rfl
    | ok fromSut => rfl

include hv

/-- A vector of a whole number of packets loses its first one: the others are sent, and returned if they are echoed. -/
theorem sendIntelPacketStream_whole (hsome : channelId ≠ 0) (hchannel : channelId ≤ player.nChains)
    {count : Nat} (hcount : v.usedBits = 8 * (count + 1)) :
    ∃ streamId fromSut payload ring,
      Ends (sendIntelPacketStream respond player channelId v link)
        (.ok fromSut, ⟨ring, link.sent ++ preamble streamId ++ payload ++ [release]⟩) ∧
      payload.length = count ∧ (∀ packet ∈ payload, packet.opcode = .data) ∧
      unpack (payload.reverse.map RingPacket.data) = v.bits.drop 8 ∧
      (Echoes respond → fromSut.bits = v.bits.drop 8) := by
  have hused := hv.usedBits_lt
  have hsize : uint32Size = 4294967296 := rfl
  obtain ⟨streamId, hstream⟩ := regionId_eq player hchannel
  have hoffset : (v.usedBits + uint32Size - dataWidth) % uint32Size = 8 * count := by
    rw [hsize] at hused ⊢
    unfold dataWidth
    omega
  obtain ⟨payload, received, ring, hends, hlength, hreceived, hopcodes, hpayload, hechoed⟩ :=
    sendData_whole streamId hv (show 8 * (count + 1) ≤ v.usedBits by omega) []
      (link.exchangeAll respond (preamble streamId))
  rw [← hoffset, List.append_nil] at hends
  have hresult := sendIntelPacketStream_ends respond player link hsome hchannel hstream hends
  have hread := fromNetworkOrder_eq (show 8 * received.length < uint32Size by omega)
  have hall : (v.bits.drop 8).take (8 * count) = v.bits.drop 8 := by
    apply List.take_of_length_le
    rw [List.length_drop, hv.exactBytes.bits_length]
    omega
  rw [hall] at hpayload
  simp only [hread, exchangeAll_sent] at hresult
  refine ⟨streamId, _, payload, _, hresult, hlength, hopcodes, hpayload, fun hechoes => ?_⟩
  rw [bits_ofBits, hechoed hechoes, hpayload]

/-- Any other vector that is longer than a packet is refused when some of it is sent. -/
theorem sendIntelPacketStream_partial (hsome : channelId ≠ 0) (hchannel : channelId ≤ player.nChains)
    (hrest : v.usedBits % 8 ≠ 0) (hlong : 8 ≤ v.usedBits) :
    ∃ fault link', Ends (sendIntelPacketStream respond player channelId v link)
        (.error fault, link') ∧ link.sent.length + 4 < link'.sent.length := by
  have hused := hv.usedBits_lt
  have hsize : uint32Size = 4294967296 := rfl
  obtain ⟨streamId, hstream⟩ := regionId_eq player hchannel
  obtain ⟨count, hcount⟩ : ∃ count, v.usedBits = 8 * (count + 1) + v.usedBits % 8 :=
    ⟨v.usedBits / 8 - 1, by omega⟩
  have hoffset : (v.usedBits + uint32Size - dataWidth) % uint32Size =
      8 * count + v.usedBits % 8 := by
    rw [hsize] at hused ⊢
    unfold dataWidth
    omega
  obtain ⟨fault, link', hends, hsent⟩ := @sendData_wraps _ respond v streamId hv count _ rfl hrest
    (Nat.le_of_eq hcount.symm) [] (link.exchangeAll respond (preamble streamId))
  rw [← hoffset] at hends
  have hresult := sendIntelPacketStream_ends respond player link hsome hchannel hstream hends
  refine ⟨fault, link', hresult, ?_⟩
  rw [exchangeAll_sent, List.length_append] at hsent
  have hfour : (preamble streamId).length = 4 := rfl
  omega

omit hv in
/-- A vector that is shorter than a packet is refused before anything of it is sent. -/
theorem sendIntelPacketStream_short (hsome : channelId ≠ 0) (hchannel : channelId ≤ player.nChains)
    (hpos : 0 < v.usedBits) (hshort : v.usedBits < 8) :
    ∃ fault streamId ring, Ends (sendIntelPacketStream respond player channelId v link)
      (.error fault, ⟨ring, link.sent ++ preamble streamId⟩) := by
  have hsize : uint32Size = 4294967296 := rfl
  obtain ⟨streamId, hstream⟩ := regionId_eq player hchannel
  have hout : v.usedBits ≤ (v.usedBits + uint32Size - dataWidth) % uint32Size := by
    rw [hsize]
    unfold dataWidth
    omega
  obtain ⟨fault, hfault⟩ := packetData_refused hout
  have hends : Ends (fun fuel => sendData respond streamId v fuel
      ((v.usedBits + uint32Size - dataWidth) % uint32Size) []
        (link.exchangeAll respond (preamble streamId)))
      (.error fault, link.exchangeAll respond (preamble streamId)) := by
    refine ⟨1, fun fuel hfuel => ?_⟩
    obtain ⟨rest, rfl⟩ := Nat.exists_eq_add_of_le' hfuel
    exact sendData_refused streamId (by omega) hfault rest _ _
  have hresult := sendIntelPacketStream_ends respond player link hsome hchannel hstream hends
  have hsent := exchangeAll_sent respond link (preamble streamId)
  refine ⟨fault, streamId, (link.exchangeAll respond (preamble streamId)).ring, ?_⟩
  rw [← hsent]
  exact hresult

/-- The call does what it should for vectors shorter than a packet only, which it refuses. -/
theorem streamLaw_iff (hchannel : channelId ≤ player.nChains) (hpos : 0 < v.usedBits) :
    StreamLaw respond player channelId v link ↔ channelId ≠ 0 ∧ v.usedBits < 8 := by
  have hlength := hv.exactBytes.bits_length
  constructor
  · rintro ⟨result, link', hends, hresult⟩
    by_cases hsome : channelId = 0
    · have hreset : Ends (sendIntelPacketStream respond player channelId v link)
          (.ok empty, link) := ⟨0, fun fuel _ => if_pos hsome⟩
      obtain ⟨rfl, rfl⟩ := Prod.mk.inj (hends.unique hreset)
      rcases hresult with ⟨_, _, _, hfault, -⟩ | ⟨_, streamId, payload, -, hsent, -⟩
      · cases hfault
      · have hcount := congrArg List.length hsent
        simp only [List.length_append, List.length_singleton] at hcount
        omega
    · refine ⟨hsome, ?_⟩
      by_contra hlong
      by_cases hwhole : v.usedBits % 8 = 0
      · obtain ⟨streamId, fromSut, payload, ring, hall, hcount, -⟩ :=
          sendIntelPacketStream_whole respond player hv link hsome hchannel
            (show v.usedBits = 8 * (v.usedBits / 8 - 1 + 1) by omega)
        obtain ⟨rfl, rfl⟩ := Prod.mk.inj (hends.unique hall)
        rcases hresult with ⟨_, _, _, hfault, -⟩ | ⟨_, other, carried, -, hsent, -, hcarries, -⟩
        · cases hfault
        · obtain ⟨padding, -, hbits⟩ := hcarries
          have hpackets := congrArg List.length hsent
          have hpayload := congrArg List.length hbits
          have hfour (streamId : BitVec 2) : (preamble streamId).length = 4 := rfl
          simp only [List.length_append, List.length_singleton, hfour] at hpackets
          simp only [unpack_length, List.length_map, List.length_reverse, List.length_append,
            hlength] at hpayload
          omega
      · obtain ⟨fault, link'', hall, hsent⟩ := sendIntelPacketStream_partial respond player hv link
          hsome hchannel hwhole (Nat.le_of_not_lt hlong)
        obtain ⟨rfl, rfl⟩ := Prod.mk.inj (hends.unique hall)
        rcases hresult with ⟨_, streamId, sent, -, hprefix, hpackets⟩ | ⟨_, _, _, hvalue, -⟩
        · have hfew := hprefix.length_le
          have hfour : (preamble streamId).length = 4 := rfl
          rw [hpackets, List.length_append] at hsent
          omega
        · cases hvalue
  · rintro ⟨hsome, hshort⟩
    obtain ⟨fault, streamId, ring, hends⟩ :=
      sendIntelPacketStream_short respond player link hsome hchannel hpos hshort
    exact ⟨_, _, hends, .inl ⟨fault, streamId, preamble streamId, rfl, List.prefix_refl _, rfl⟩⟩

end Stream

/-- A ring that returns every packet as it is. -/
def echoRing (ring : Unit) (packet : RingPacket) : RingPacket × Unit := (packet, ring)

theorem streamLaw_five_bits :
    StreamLaw echoRing (.ofRegions [2]) 1 (ofBits [true, false, true, true, false] .notFixed) ⟨(), []⟩ ↔
      1 ≠ 0 ∧ (ofBits [true, false, true, true, false] .notFixed).usedBits < 8 :=
  streamLaw_iff echoRing (.ofRegions [2]) ⟨(ofBits_wellFormed _ _).exactBytes, by decide⟩ ⟨(), []⟩
    (by decide) (by decide)

/-- Of 16 bits the first eight are not sent. -/
theorem not_streamLaw_sixteen_bits :
    ¬StreamLaw echoRing (.ofRegions [2]) 1 (ofBits (List.replicate 16 true) .notFixed) ⟨(), []⟩ := by
  rintro ⟨result, link', hends, hresult⟩
  have hrun : Ends (sendIntelPacketStream echoRing (.ofRegions [2]) 1
      (ofBits (List.replicate 16 true) .notFixed) ⟨(), []⟩)
      (.ok (ofBits (List.replicate 8 true) .notFixed),
        ⟨(), preamble 1 ++ [⟨1, .data, 0xFF⟩, release]⟩) := by
    refine ⟨2, fun fuel hfuel => ?_⟩
    obtain ⟨rest, rfl⟩ := Nat.exists_eq_add_of_le' hfuel
    rfl
  obtain ⟨rfl, rfl⟩ := Prod.mk.inj (hends.unique hrun)
  rcases hresult with ⟨_, _, _, hfault, -⟩ | ⟨fromSut, _, _, hvalue, -, -, -, hechoed⟩
  · cases hfault
  · obtain rfl := Except.ok.inj hvalue
    have hbits := hechoed fun _ _ _ => rfl
    rw [bits_ofBits, bits_ofBits] at hbits
    cases hbits

end Intel

end Mast
