import EdgeOrchestrator.Core.Types
import EdgeOrchestrator.Library.ByteOrder
import Mathlib.Data.List.TakeWhile

/-!
# Discovery adverts

The 72-byte packet that nodes broadcast.  The sender fills a packed structure in
the memory of its host and sends its bytes.  The receiving loop reads a datagram
into the same structure, checks its size, magic and version, and parses it into a
`PeerInfo`.

Main results:

- `parseAdvert_ofBytes`: every host parses a packet alike.
- `advert_roundTrip`: what any host receives from any other.
-/

namespace EdgeOrchestrator

namespace Advert

/-! ## The packet in memory -/

/-- `sizeof(AdvertPacket)`. -/
def packetSize : Nat := 72

/-- The bytes of `"EORC"`. -/
def magicBytes : List UInt8 := [0x45, 0x4F, 0x52, 0x43]

/-- The second version of the packet. -/
def protocolVersion : UInt8 := 2

/-- The fields that the receiver reads; words hold what the host loads. -/
structure AdvertPacket where
  magic : List UInt8
  version : UInt8
  nodeId : List UInt8
  tcpPortBe : BitVec 16
  cpuUsageBitsBe : BitVec 32
  memoryAvailableBe : BitVec 64
  memoryTotalBe : BitVec 64
  temperatureBitsBe : BitVec 32
  flagsBe : BitVec 32
deriving DecidableEq, Repr

/-- Some bytes of a packet. -/
def slice (bytes : List UInt8) (start length : Nat) : List UInt8 :=
  (bytes.drop start).take length

variable (order : ByteOrder)

/-- Load the word of `width` bytes at an offset. -/
def loadWord (width : Nat) (bytes : List UInt8) (start : Nat) : BitVec (8 * width) :=
  BitVec.ofNat (8 * width) (order.load (slice bytes start width))

/-- The packed layout. -/
def AdvertPacket.ofBytes (bytes : List UInt8) : AdvertPacket where
  magic := slice bytes 0 4
  version := bytes.getD 4 0
  nodeId := slice bytes 8 32
  tcpPortBe := loadWord order 2 bytes 40
  cpuUsageBitsBe := loadWord order 4 bytes 44
  memoryAvailableBe := loadWord order 8 bytes 48
  memoryTotalBe := loadWord order 8 bytes 56
  temperatureBitsBe := loadWord order 4 bytes 64
  flagsBe := loadWord order 4 bytes 68

/-- Conversion of a word of `width` bytes from big-endian order. -/
def betoh (width : Nat) (word : BitVec (8 * width)) : BitVec (8 * width) :=
  BitVec.ofNat (8 * width) (order.hostSwap width word.toNat)

def be16toh (word : BitVec 16) : BitVec 16 :=
  betoh order 2 word

def be32toh (word : BitVec 32) : BitVec 32 :=
  betoh order 4 word

def be64toh (word : BitVec 64) : BitVec 64 :=
  betoh order 8 word

/-- The bit pattern travels as a big-endian word. -/
def floatFromWire (wire : BitVec 32) : F32 :=
  be32toh order wire

/-! ## Receiving -/

/-- `parse_advert`; the id ends at its first zero byte, if there is one. -/
def parseAdvert (pkt : AdvertPacket) (senderAddr : ByteString) (now : Timestamp) : PeerInfo :=
  let nodeId := pkt.nodeId.takeWhile (· ≠ 0)
  { nodeId := nodeId
    address := senderAddr
    tcpPort := be16toh order pkt.tcpPortBe
    reachable := true
    resources :=
      { nodeId := nodeId
        cpuUsagePercent := floatFromWire order pkt.cpuUsageBitsBe
        memoryAvailableBytes := be64toh order pkt.memoryAvailableBe
        memoryTotalBytes := be64toh order pkt.memoryTotalBe
        cpuTemperatureCelsius := floatFromWire order pkt.temperatureBitsBe
        isThrottled := be32toh order pkt.flagsBe &&& 1 != 0
        timestamp := now } }

/-- Read a datagram and validate it.  `recvfrom` cuts a longer datagram off at
the size of the packet. -/
def receive (datagram : List UInt8) : Option AdvertPacket :=
  let bytes := datagram.take packetSize
  let pkt := AdvertPacket.ofBytes order bytes
  if bytes.length ≠ packetSize then none
  else if pkt.magic ≠ magicBytes then none
  else if pkt.version ≠ protocolVersion then none
  else some pkt

/-! ## Sending -/

/-- Conversion of a word of `width` bytes to big-endian order. -/
def htobe (width : Nat) (word : BitVec (8 * width)) : BitVec (8 * width) :=
  BitVec.ofNat (8 * width) (order.hostSwap width word.toNat)

def htobe16 (word : BitVec 16) : BitVec 16 :=
  htobe order 2 word

def htobe32 (word : BitVec 32) : BitVec 32 :=
  htobe order 4 word

def htobe64 (word : BitVec 64) : BitVec 64 :=
  htobe order 8 word

def floatToWire (value : F32) : BitVec 32 :=
  htobe32 order value

/-- The `node_id` field: at most 31 bytes, padded with zeros. -/
def wireNodeId (nodeId : NodeId) : List UInt8 :=
  nodeId.take 31 ++ List.replicate (32 - min nodeId.length 31) 0

/-- `build_advert`. -/
def buildAdvert (nodeId : NodeId) (tcpPort : BitVec 16) (localResources : ResourceSnapshot)
    : AdvertPacket where
  magic := magicBytes
  version := protocolVersion
  nodeId := wireNodeId nodeId
  tcpPortBe := htobe16 order tcpPort
  cpuUsageBitsBe := floatToWire order localResources.cpuUsagePercent
  memoryAvailableBe := htobe64 order localResources.memoryAvailableBytes
  memoryTotalBe := htobe64 order localResources.memoryTotalBytes
  temperatureBitsBe := floatToWire order localResources.cpuTemperatureCelsius
  flagsBe := htobe32 order (if localResources.isThrottled then 1 else 0)

/-- A word in the memory of the host. -/
def storeWord (width : Nat) (word : BitVec (8 * width)) : List UInt8 :=
  order.store width word.toNat

/-- The fields of the packed layout in the memory of the host; `reserved` and
`padding` are zero. -/
def AdvertPacket.fields (pkt : AdvertPacket) : List (List UInt8) :=
  [pkt.magic, [pkt.version], [0, 0, 0], pkt.nodeId, storeWord order 2 pkt.tcpPortBe, [0, 0],
    storeWord order 4 pkt.cpuUsageBitsBe, storeWord order 8 pkt.memoryAvailableBe,
    storeWord order 8 pkt.memoryTotalBe, storeWord order 4 pkt.temperatureBitsBe,
    storeWord order 4 pkt.flagsBe]

/-- The bytes that `sendto` sends. -/
def AdvertPacket.toBytes (pkt : AdvertPacket) : List UInt8 :=
  (pkt.fields order).flatten

/-! ## Host independence -/

theorem length_slice {bytes : List UInt8} {start length : Nat}
    (h : start + length ≤ bytes.length) : (slice bytes start length).length = length := by
  rw [slice, List.length_take, List.length_drop]
  omega

/-- Loading a word and converting it reads the big-endian word. -/
theorem betoh_loadWord {width start : Nat} {bytes : List UInt8} (h : start + width ≤ bytes.length) :
    betoh order width (loadWord order width bytes start) =
      loadWord .big width bytes start := by
  have hlength := length_slice h
  have hlt : order.load (slice bytes start width) < 2 ^ (8 * width) := by
    have hload := ByteOrder.load_lt order (slice bytes start width)
    rw [hlength] at hload
    rw [Nat.pow_mul]
    exact hload
  have hswap := ByteOrder.hostSwap_load order (slice bytes start width)
  rw [hlength] at hswap
  rw [betoh, loadWord, BitVec.toNat_ofNat, Nat.mod_eq_of_lt hlt, hswap, loadWord]

/-- Every host parses a packet alike. -/
theorem parseAdvert_ofBytes {bytes : List UInt8} (h : bytes.length = packetSize)
    (senderAddr : ByteString) (now : Timestamp) :
    parseAdvert order (AdvertPacket.ofBytes order bytes) senderAddr now =
      parseAdvert .big (AdvertPacket.ofBytes .big bytes) senderAddr now := by
  have hword : ∀ width start, start + width ≤ 72 →
      betoh order width (loadWord order width bytes start) =
        betoh .big width (loadWord .big width bytes start) := by
    intro width start hle
    rw [betoh_loadWord order (by rw [h]; exact hle), betoh_loadWord .big (by rw [h]; exact hle)]
  have hport : be16toh order (AdvertPacket.ofBytes order bytes).tcpPortBe =
      be16toh .big (AdvertPacket.ofBytes .big bytes).tcpPortBe := hword 2 40 (by omega)
  have hcpu : be32toh order (AdvertPacket.ofBytes order bytes).cpuUsageBitsBe =
      be32toh .big (AdvertPacket.ofBytes .big bytes).cpuUsageBitsBe := hword 4 44 (by omega)
  have havailable : be64toh order (AdvertPacket.ofBytes order bytes).memoryAvailableBe =
      be64toh .big (AdvertPacket.ofBytes .big bytes).memoryAvailableBe := hword 8 48 (by omega)
  have htotal : be64toh order (AdvertPacket.ofBytes order bytes).memoryTotalBe =
      be64toh .big (AdvertPacket.ofBytes .big bytes).memoryTotalBe := hword 8 56 (by omega)
  have htemperature : be32toh order (AdvertPacket.ofBytes order bytes).temperatureBitsBe =
      be32toh .big (AdvertPacket.ofBytes .big bytes).temperatureBitsBe := hword 4 64 (by omega)
  have hflags : be32toh order (AdvertPacket.ofBytes order bytes).flagsBe =
      be32toh .big (AdvertPacket.ofBytes .big bytes).flagsBe := hword 4 68 (by omega)
  simp only [parseAdvert, floatFromWire, hport, hcpu, havailable, htotal, htemperature, hflags]
  rfl

/-! ## Round trip -/

/-- A field of a packed structure is found after the fields before it. -/
theorem slice_flatten (before : List (List UInt8)) (field : List UInt8)
    (after : List (List UInt8)) {start length : Nat} (hstart : before.flatten.length = start)
    (hlength : field.length = length) :
    slice (before ++ field :: after).flatten start length = field := by
  rw [slice, List.flatten_append, List.flatten_cons, List.drop_left' hstart,
    List.take_left' hlength]

theorem toNat_lt_pow {width : Nat} (word : BitVec (8 * width)) : word.toNat < 256 ^ width := by
  have hlt := word.isLt
  rw [Nat.pow_mul] at hlt
  exact hlt

theorem length_storeWord (width : Nat) (word : BitVec (8 * width)) :
    (storeWord order width word).length = width :=
  ByteOrder.length_store order width word.toNat

/-- A stored word is loaded from its place. -/
theorem loadWord_flatten {width : Nat} (before : List (List UInt8)) (word : BitVec (8 * width))
    (after : List (List UInt8)) {start : Nat} (hstart : before.flatten.length = start) :
    loadWord order width (before ++ storeWord order width word :: after).flatten start = word := by
  rw [loadWord, slice_flatten before _ after hstart (length_storeWord order width word), storeWord,
    ByteOrder.load_store order (toNat_lt_pow word), BitVec.ofNat_toNat]
  exact BitVec.setWidth_eq word

/-- Converting a word to big-endian order and back restores it. -/
theorem betoh_htobe (width : Nat) (word : BitVec (8 * width)) :
    betoh order width (htobe order width word) = word := by
  have hlt := ByteOrder.hostSwap_lt order (toNat_lt_pow word)
  rw [← Nat.pow_mul 2 8 width] at hlt
  rw [betoh, htobe, BitVec.toNat_ofNat, Nat.mod_eq_of_lt hlt,
    ByteOrder.hostSwap_hostSwap order (toNat_lt_pow word), BitVec.ofNat_toNat]
  exact BitVec.setWidth_eq word

variable (nodeId : NodeId)

theorem length_wireNodeId : (wireNodeId nodeId).length = 32 := by
  rw [wireNodeId, List.length_append, List.length_take, List.length_replicate]
  omega

theorem AdvertPacket.length_toBytes {pkt : AdvertPacket} (hmagic : pkt.magic.length = 4)
    (hnodeId : pkt.nodeId.length = 32) :
    (pkt.toBytes order).length = packetSize := by
  simp [AdvertPacket.toBytes, AdvertPacket.fields, storeWord, hmagic, hnodeId, packetSize]

/-- A host reads back the packet it has sent. -/
theorem AdvertPacket.ofBytes_toBytes {pkt : AdvertPacket} (hmagic : pkt.magic.length = 4)
    (hnodeId : pkt.nodeId.length = 32) :
    AdvertPacket.ofBytes order (pkt.toBytes order) = pkt := by
  have hoffset : ∀ i, ((pkt.fields order).take i).flatten.length =
      ([4, 1, 3, 32, 2, 2, 4, 8, 8, 4, 4].take i).sum := by
    intro i
    rw [List.length_flatten, List.map_take]
    simp only [AdvertPacket.fields, List.map_cons, List.map_nil, length_storeWord, hmagic, hnodeId,
      List.length_cons, List.length_nil]
  have hword : ∀ (i width : Nat) (word : BitVec (8 * width)),
      pkt.fields order = (pkt.fields order).take i ++ storeWord order width word ::
        (pkt.fields order).drop (i + 1) →
      loadWord order width (pkt.toBytes order) ([4, 1, 3, 32, 2, 2, 4, 8, 8, 4, 4].take i).sum =
        word := by
    intro i width word hsplit
    rw [AdvertPacket.toBytes, hsplit]
    exact loadWord_flatten order _ word _ (hoffset i)
  have hmagic' : slice (pkt.toBytes order) 0 4 = pkt.magic :=
    slice_flatten [] pkt.magic ((pkt.fields order).drop 1) rfl hmagic
  have hnodeId' : slice (pkt.toBytes order) 8 32 = pkt.nodeId :=
    slice_flatten ((pkt.fields order).take 3) pkt.nodeId ((pkt.fields order).drop 4) (hoffset 3)
      hnodeId
  have hversion : (pkt.toBytes order).getD 4 0 = pkt.version := by
    rw [AdvertPacket.toBytes, AdvertPacket.fields, List.flatten_cons, List.getD_eq_getElem?_getD,
      List.getElem?_append_right hmagic.le, hmagic]
    rfl
  have hport : loadWord order 2 (pkt.toBytes order) 40 = pkt.tcpPortBe :=
    hword 4 2 pkt.tcpPortBe rfl
  have hcpu : loadWord order 4 (pkt.toBytes order) 44 = pkt.cpuUsageBitsBe :=
    hword 6 4 pkt.cpuUsageBitsBe rfl
  have havailable : loadWord order 8 (pkt.toBytes order) 48 = pkt.memoryAvailableBe :=
    hword 7 8 pkt.memoryAvailableBe rfl
  have htotal : loadWord order 8 (pkt.toBytes order) 56 = pkt.memoryTotalBe :=
    hword 8 8 pkt.memoryTotalBe rfl
  have htemperature : loadWord order 4 (pkt.toBytes order) 64 = pkt.temperatureBitsBe :=
    hword 9 4 pkt.temperatureBitsBe rfl
  have hflags : loadWord order 4 (pkt.toBytes order) 68 = pkt.flagsBe :=
    hword 10 4 pkt.flagsBe rfl
  simp only [AdvertPacket.ofBytes, hmagic', hnodeId', hversion, hport, hcpu, havailable, htotal,
    htemperature, hflags]

/-- What a node's id has become when it is received: its first 31 bytes, up to the
first zero byte. -/
def receivedNodeId : NodeId :=
  (nodeId.take 31).takeWhile (· ≠ 0)

theorem takeWhile_wireNodeId : (wireNodeId nodeId).takeWhile (· ≠ 0) = receivedNodeId nodeId := by
  obtain ⟨k, hk⟩ : ∃ k, 32 - min nodeId.length 31 = k + 1 := ⟨31 - min nodeId.length 31, by omega⟩
  rw [wireNodeId, receivedNodeId, hk, List.replicate_succ, List.takeWhile_append]
  split
  · rename_i hfull
    -- No byte of the id is zero, so the first byte of the padding ends it.
    rw [List.takeWhile_cons_of_neg (by decide), List.append_nil]
    exact ((List.takeWhile_sublist _).eq_of_length hfull).symm
  · rfl

/-- An id survives the trip exactly when it fits and has no zero byte. -/
theorem receivedNodeId_eq_iff {nodeId : NodeId} :
    receivedNodeId nodeId = nodeId ↔ nodeId.length ≤ 31 ∧ 0 ∉ nodeId := by
  have hnonzero : (∀ byte ∈ nodeId, decide (byte ≠ 0) = true) ↔ 0 ∉ nodeId := by
    simp only [decide_eq_true_eq]
    exact ⟨fun h hmem => h 0 hmem rfl, fun h byte hmem hzero => h (hzero ▸ hmem)⟩
  constructor
  · intro h
    have hlength : nodeId.length ≤ 31 := by
      calc
        nodeId.length = (receivedNodeId nodeId).length := by rw [h]
        _ ≤ (nodeId.take 31).length := (List.takeWhile_sublist _).length_le
        _ ≤ 31 := List.length_take_le 31 nodeId
    rw [receivedNodeId, List.take_of_length_le hlength, List.takeWhile_eq_self_iff] at h
    exact ⟨hlength, hnonzero.1 h⟩
  · rintro ⟨hlength, hzero⟩
    rw [receivedNodeId, List.take_of_length_le hlength, List.takeWhile_eq_self_iff]
    exact hnonzero.2 hzero

/-- What a receiver makes of an advert built from these values. -/
def receivedPeer (tcpPort : BitVec 16) (localResources : ResourceSnapshot) (senderAddr : ByteString)
    (now : Timestamp) : PeerInfo where
  nodeId := receivedNodeId nodeId
  address := senderAddr
  tcpPort := tcpPort
  reachable := true
  resources :=
    { nodeId := receivedNodeId nodeId
      cpuUsagePercent := localResources.cpuUsagePercent
      memoryAvailableBytes := localResources.memoryAvailableBytes
      memoryTotalBytes := localResources.memoryTotalBytes
      cpuTemperatureCelsius := localResources.cpuTemperatureCelsius
      isThrottled := localResources.isThrottled
      timestamp := now }

/-- On one host, parsing a built packet gives what it was built from. -/
theorem parseAdvert_buildAdvert (tcpPort : BitVec 16) (localResources : ResourceSnapshot)
    (senderAddr : ByteString) (now : Timestamp) :
    parseAdvert order (buildAdvert order nodeId tcpPort localResources) senderAddr now =
      receivedPeer nodeId tcpPort localResources senderAddr now := by
  have hword16 : ∀ word : BitVec 16, be16toh order (htobe16 order word) = word :=
    fun word => betoh_htobe order 2 word
  have hword32 : ∀ word : BitVec 32, be32toh order (htobe32 order word) = word :=
    fun word => betoh_htobe order 4 word
  have hword64 : ∀ word : BitVec 64, be64toh order (htobe64 order word) = word :=
    fun word => betoh_htobe order 8 word
  have hflag : ((if localResources.isThrottled then 1 else 0 : BitVec 32) &&& 1 != 0) =
      localResources.isThrottled := by
    cases localResources.isThrottled with
    | true | false => rfl
  simp only [parseAdvert, buildAdvert, receivedPeer, floatFromWire, floatToWire,
    takeWhile_wireNodeId, hword16, hword32, hword64, hflag]

section RoundTrip

variable (sender receiver : ByteOrder) (nodeId : NodeId) (tcpPort : BitVec 16)
  (localResources : ResourceSnapshot) (senderAddr : ByteString) (now : Timestamp)

/-- The bytes that a host sends. -/
def advertBytes : List UInt8 :=
  (buildAdvert sender nodeId tcpPort localResources).toBytes sender

theorem length_advertBytes :
    (advertBytes sender nodeId tcpPort localResources).length = packetSize :=
  AdvertPacket.length_toBytes sender rfl (length_wireNodeId nodeId)

theorem ofBytes_advertBytes :
    AdvertPacket.ofBytes sender (advertBytes sender nodeId tcpPort localResources) =
      buildAdvert sender nodeId tcpPort localResources :=
  AdvertPacket.ofBytes_toBytes sender rfl (length_wireNodeId nodeId)

/-- A sent packet passes the checks of every host. -/
theorem receive_advertBytes :
    receive receiver (advertBytes sender nodeId tcpPort localResources) =
      some (AdvertPacket.ofBytes receiver (advertBytes sender nodeId tcpPort localResources)) := by
  have hlength := length_advertBytes sender nodeId tcpPort localResources
  have hsame := ofBytes_advertBytes sender nodeId tcpPort localResources
  have hmagic : (AdvertPacket.ofBytes receiver
      (advertBytes sender nodeId tcpPort localResources)).magic = magicBytes :=
    congrArg AdvertPacket.magic hsame
  have hversion : (AdvertPacket.ofBytes receiver
      (advertBytes sender nodeId tcpPort localResources)).version = protocolVersion :=
    congrArg AdvertPacket.version hsame
  simp only [receive, List.take_of_length_le hlength.le, hlength, hmagic, hversion, ne_eq,
    not_true_eq_false, if_false]

theorem parseAdvert_advertBytes :
    parseAdvert receiver
        (AdvertPacket.ofBytes receiver (advertBytes sender nodeId tcpPort localResources))
        senderAddr now =
      receivedPeer nodeId tcpPort localResources senderAddr now := by
  have hlength := length_advertBytes sender nodeId tcpPort localResources
  rw [parseAdvert_ofBytes receiver hlength, ← parseAdvert_ofBytes sender hlength,
    ofBytes_advertBytes]
  exact parseAdvert_buildAdvert sender nodeId tcpPort localResources senderAddr now

end RoundTrip

/-- For every id, port and snapshot and any two hosts, the 72 bytes that one host
sends pass the checks of the other, which reads the same port, bit patterns, memory
and flag, and the part of the id that the packet carries. -/
theorem advert_roundTrip (sender receiver : ByteOrder) (nodeId : NodeId) (tcpPort : BitVec 16)
    (localResources : ResourceSnapshot) (senderAddr : ByteString) (now : Timestamp) :
    ((buildAdvert sender nodeId tcpPort localResources).toBytes sender).length = 72 ∧
      ∃ pkt, receive receiver ((buildAdvert sender nodeId tcpPort localResources).toBytes sender) =
          some pkt ∧
        parseAdvert receiver pkt senderAddr now =
          { nodeId := (nodeId.take 31).takeWhile (· ≠ 0)
            address := senderAddr
            tcpPort := tcpPort
            reachable := true
            resources :=
              { nodeId := (nodeId.take 31).takeWhile (· ≠ 0)
                cpuUsagePercent := localResources.cpuUsagePercent
                memoryAvailableBytes := localResources.memoryAvailableBytes
                memoryTotalBytes := localResources.memoryTotalBytes
                cpuTemperatureCelsius := localResources.cpuTemperatureCelsius
                isThrottled := localResources.isThrottled
                timestamp := now } } := by
  refine ⟨length_advertBytes sender nodeId tcpPort localResources, _,
    receive_advertBytes sender receiver nodeId tcpPort localResources, ?_⟩
  exact parseAdvert_advertBytes sender receiver nodeId tcpPort localResources senderAddr now

end Advert

end EdgeOrchestrator
