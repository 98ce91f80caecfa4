/-
# Interface and address updates

`on_client_connect` tells a new client which interfaces and addresses there are.
`get_all_devices` and `get_all_addresses` write one record for each, and
`ipaugenblick_read_updates` hands the bytes behind the first one to the client.

The encoders shift to the left where they mean to shift to the right, so all bytes
but the lowest are lost.  What fits in one byte survives; the MTU does not, and the
length of the hardware address is turned round again for every device.
-/

import IpAugenblick.Lib.Bytes
import IpAugenblick.Service.Registration

namespace IpAugenblick

open Lib

def rteMaxEthports : ℕ := 32

def aliasesMaxNumber : ℕ := 4

def ifaceNameSize : ℕ := 20

/-- A device: the bytes that `get_dev_name` points at. -/
structure DpdkDevice where
  name : Vector UInt8 ifaceNameSize

/-- A line of `dpdk_dev_config`; of the strings, what stands in front of the terminator. -/
structure DevConfig where
  portNumber : ℤ
  ipAddrStr : List UInt8
  ipMaskStr : List UInt8
  deriving DecidableEq, Repr

/-! ## The encoders -/

def encode16 (val : UInt16) : List UInt8 := [(val <<< 8).toUInt8, (val &&& 0xFF).toUInt8]

def encode32 (val : UInt32) : List UInt8 :=
  [(val <<< 24).toUInt8, (val <<< 16).toUInt8, (val <<< 8).toUInt8, val.toUInt8]

def encode64 (val : UInt64) : List UInt8 :=
  [(val <<< 56).toUInt8, (val <<< 48).toUInt8, (val <<< 40).toUInt8, (val <<< 32).toUInt8,
    (val <<< 24).toUInt8, (val <<< 16).toUInt8, (val <<< 8).toUInt8, val.toUInt8]

/-- The memory of a `uint32_t`. -/
def memBytes32 (val : UInt32) : List UInt8 := leBytes 4 val.toNat

/-- `htonl` of a little-endian machine. -/
def htonl (val : UInt32) : UInt32 := UInt32.ofNat (beValue (memBytes32 val))

/-! ## The updates -/

/-! The locals of `get_all_devices`. -/

def deviceFlags : UInt64 := (1 <<< 0 ||| 1 <<< 1 ||| 1 <<< 6 : ℕ).toUInt64

def deviceMetric : UInt32 := 1

def deviceMtu : UInt32 := 1500

def deviceMtu6 : UInt32 := 1500

def deviceBandwidth : UInt32 := 0

def deviceHwAddrLen : UInt32 := 6

/-- The locals that the loop of `get_all_devices` changes. -/
structure DevicesLoop where
  buf : List UInt8
  hwAddrLen : UInt32

/-- What a round of `get_all_devices` writes; `sockaddrDl` is never set. -/
def deviceRecord (sockaddrDl : Vector UInt8 6) (hwAddrLen : UInt32) (devIdx : ℕ)
    (dev : DpdkDevice) : List UInt8 :=
  let status : UInt8 := 0
  dev.name.toList ++ (encode32 (UInt32.ofNat devIdx) ++ ([status] ++ (encode64 deviceFlags ++
    (encode32 deviceMetric ++ (encode32 deviceMtu ++ (encode32 deviceMtu6 ++
      (encode32 deviceBandwidth ++ (memBytes32 hwAddrLen ++ sockaddrDl.toList))))))))

/-- A round of `get_all_devices`. -/
def DevicesLoop.next (dpdkDevices : ℕ → Option DpdkDevice) (sockaddrDl : Vector UInt8 6)
    (l : DevicesLoop) (devIdx : ℕ) : DevicesLoop :=
  match dpdkDevices devIdx with
  | none => l
  | some dev =>
      -- in place, so every other device has it turned round
      let hwAddrLen := htonl l.hwAddrLen
      { buf := l.buf ++ deviceRecord sockaddrDl hwAddrLen devIdx dev, hwAddrLen }

/-- `get_all_devices`: what it writes; the result is its length. -/
def getAllDevices (dpdkDevices : ℕ → Option DpdkDevice) (sockaddrDl : Vector UInt8 6) :
    List UInt8 :=
  ((List.range rteMaxEthports).foldl (DevicesLoop.next dpdkDevices sockaddrDl)
    { buf := [], hwAddrLen := deviceHwAddrLen }).buf

/-- What a round of `get_all_addresses` writes. -/
def addressRecord (inetAddr : List UInt8 → UInt32) (devIdx : ℕ) (line : DevConfig) : List UInt8 :=
  let flags := (1 <<< 0 ||| 1 <<< 1 ||| 1 <<< 6 : ℕ).toUInt8
  let family : UInt8 := 2
  let prefixLen : UInt8 := 32
  encode32 (UInt32.ofNat devIdx) ++ ([flags] ++ ([family] ++
    (memBytes32 (inetAddr line.ipAddrStr) ++ ([prefixLen] ++ (memBytes32 0 ++ [prefixLen])))))

/-- A round of `get_all_addresses`. -/
def addressesNext (inetAddr : List UInt8 → UInt32) (dpdkDevices : ℕ → Option DpdkDevice)
    (dpdkDevConfig : ℕ → DevConfig) (buf : List UInt8) (devIdx : ℕ) : List UInt8 :=
  if (dpdkDevices devIdx).isSome ∧ (dpdkDevConfig devIdx).portNumber ≠ -1 then
    buf ++ addressRecord inetAddr devIdx (dpdkDevConfig devIdx)
  else buf

/-- `get_all_addresses`: what it writes; the result is its length. -/
def getAllAddresses (inetAddr : List UInt8 → UInt32) (dpdkDevices : ℕ → Option DpdkDevice)
    (dpdkDevConfig : ℕ → DevConfig) : List UInt8 :=
  (List.range rteMaxEthports).foldl (addressesNext inetAddr dpdkDevices dpdkDevConfig) []

def UpdateKind.byte : UpdateKind → UInt8
  | .newIfaces => 18
  | .newAddresses => 19
  | .endOfRecord => 20

/-- An mbuf of `on_client_connect`: what is written, and its data length. -/
structure UpdateMbuf where
  data : List UInt8
  dataLen : ℕ

/-- An update of `on_client_connect` with what a `get_all` function wrote. -/
def UpdateMbuf.of (kind : UpdateKind) (written : List UInt8) : UpdateMbuf where
  data := kind.byte :: written
  dataLen := (written.length + 1) % 65536

/-- What `ipaugenblick_read_updates` hands to the client. -/
def UpdateMbuf.handed (m : UpdateMbuf) : List UInt8 := m.data.tail.take (m.dataLen - 1)

/-! ## Reading an update -/

structure IfaceFields where
  index : ℕ
  flags : ℕ
  metric : ℕ
  mtu : ℕ
  mtu6 : ℕ
  bandwidth : ℕ
  hwAddrLen : ℕ
  deriving DecidableEq, Repr

structure IfaceRecord extends IfaceFields where
  name : List UInt8
  status : ℕ
  address : List UInt8
  deriving DecidableEq, Repr

def ifaceRecordSize : ℕ := 59

def decodeIface (bs : List UInt8) : IfaceRecord :=
  let (name, bs) := bs.splitAt 20
  let (index, bs) := bs.splitAt 4
  let (status, bs) := bs.splitAt 1
  let (flags, bs) := bs.splitAt 8
  let (metric, bs) := bs.splitAt 4
  let (mtu, bs) := bs.splitAt 4
  let (mtu6, bs) := bs.splitAt 4
  let (bandwidth, bs) := bs.splitAt 4
  let (hwAddrLen, address) := bs.splitAt 4
  { index := beValue index, flags := beValue flags, metric := beValue metric, mtu := beValue mtu
    mtu6 := beValue mtu6, bandwidth := beValue bandwidth, hwAddrLen := beValue hwAddrLen
    name, status := beValue status, address }

def decodeIfaces (bs : List UInt8) : Option (List IfaceRecord) :=
  (splitRecords ifaceRecordSize bs).map (List.map decodeIface)

structure AddressRecord where
  index : ℕ
  flags : ℕ
  family : ℕ
  address : List UInt8
  prefixLen : ℕ
  deriving DecidableEq, Repr

def addressRecordSize : ℕ := 16

/-- A record of NEW_ADDRESSES in network byte order. -/
def decodeAddress (bs : List UInt8) : AddressRecord :=
  let (index, bs) := bs.splitAt 4
  let (flags, bs) := bs.splitAt 1
  let (family, bs) := bs.splitAt 1
  let (address, bs) := bs.splitAt 4
  let (prefixLen, _) := bs.splitAt 1
  { index := beValue index, flags := beValue flags, family := beValue family, address
    prefixLen := beValue prefixLen }

def decodeAddresses (bs : List UInt8) : Option (List AddressRecord) :=
  (splitRecords addressRecordSize bs).map (List.map decodeAddress)

/-! ## What arrives -/

/-- A shift to the left by a byte or more leaves nothing in the lowest byte. -/
theorem shiftLeft_low_byte {n k w : ℕ} (hk : 8 ≤ k) (hw : 8 ≤ w) :
    n <<< k % 2 ^ w % 256 = 0 := by
  have hbyte : (256 : ℕ) = 2 ^ 8 := rfl
  rw [hbyte, Nat.mod_mod_of_dvd _ (Nat.pow_dvd_pow 2 hw), Nat.shiftLeft_eq]
  exact Nat.mod_eq_zero_of_dvd (Dvd.dvd.mul_left (Nat.pow_dvd_pow 2 hk) n)

/-- Only the lowest byte of a number is sent. -/
theorem encode32_eq (val : UInt32) : encode32 val = List.replicate 3 0 ++ [val.toUInt8] := by
  have hshift : ∀ k : UInt32, 8 ≤ k.toNat → k.toNat < 32 → (val <<< k).toUInt8 = 0 := by
    intro k hbyte hwidth
    apply UInt8.toNat_inj.mp
    rw [UInt32.toNat_toUInt8, UInt32.toNat_shiftLeft, Nat.mod_eq_of_lt hwidth]
    exact shiftLeft_low_byte hbyte (by decide)
  rw [encode32, hshift 24 (by decide) (by decide), hshift 16 (by decide) (by decide),
    hshift 8 (by decide) (by decide)]
  rfl

theorem encode64_eq (val : UInt64) : encode64 val = List.replicate 7 0 ++ [val.toUInt8] := by
  have hshift : ∀ k : UInt64, 8 ≤ k.toNat → k.toNat < 64 → (val <<< k).toUInt8 = 0 := by
    intro k hbyte hwidth
    apply UInt8.toNat_inj.mp
    rw [UInt64.toNat_toUInt8, UInt64.toNat_shiftLeft, Nat.mod_eq_of_lt hwidth]
    exact shiftLeft_low_byte hbyte (by decide)
  rw [encode64, hshift 56 (by decide) (by decide), hshift 48 (by decide) (by decide),
    hshift 40 (by decide) (by decide), hshift 32 (by decide) (by decide),
    hshift 24 (by decide) (by decide), hshift 16 (by decide) (by decide),
    hshift 8 (by decide) (by decide)]
  rfl

@[simp]
theorem length_encode32 (val : UInt32) : (encode32 val).length = 4 := rfl

@[simp]
theorem length_encode64 (val : UInt64) : (encode64 val).length = 8 := rfl

@[simp]
theorem length_memBytes32 (val : UInt32) : (memBytes32 val).length = 4 := length_leBytes _ _

theorem beValue_encode32 (val : UInt32) : beValue (encode32 val) = val.toNat % 256 := by
  rw [encode32_eq, beValue_zeros, UInt32.toNat_toUInt8]

theorem beValue_encode64 (val : UInt64) : beValue (encode64 val) = val.toNat % 256 := by
  rw [encode64_eq, beValue_zeros, UInt64.toNat_toUInt8]

/-- What `htonl` stores is read back in network byte order. -/
theorem beValue_htonl (val : UInt32) : beValue (memBytes32 (htonl val)) = val.toNat := by
  have hlt : beValue (memBytes32 val) < 2 ^ 32 := by
    have hbound := leValue_lt (memBytes32 val).reverse
    rwa [List.length_reverse, length_memBytes32] at hbound
  have hswapped : memBytes32 (htonl val) = (memBytes32 val).reverse := by
    have hstored := leBytes_leValue (memBytes32 val).reverse
    rw [List.length_reverse, length_memBytes32] at hstored
    rw [memBytes32, htonl, UInt32.toNat_ofNat_of_lt' hlt]
    exact hstored
  rw [hswapped, beValue, List.reverse_reverse, memBytes32, leValue_leBytes]
  exact Nat.mod_eq_of_lt val.toNat_lt

def presentDevices (dpdkDevices : ℕ → Option DpdkDevice) : List (ℕ × DpdkDevice) :=
  (List.range rteMaxEthports).filterMap fun devIdx => (dpdkDevices devIdx).map (devIdx, ·)

/-- The records that `get_all_devices` writes for some devices, given the length of the
hardware address as it stands in front of the first. -/
def deviceRecords (sockaddrDl : Vector UInt8 6) : UInt32 → List (ℕ × DpdkDevice) → List (List UInt8)
  | _, [] => []
  | hwAddrLen, (devIdx, dev) :: rest =>
      deviceRecord sockaddrDl (htonl hwAddrLen) devIdx dev ::
        deviceRecords sockaddrDl (htonl hwAddrLen) rest

/-- The numbers that arrive for them. -/
def arrivingFields : UInt32 → List (ℕ × DpdkDevice) → List IfaceFields
  | _, [] => []
  | hwAddrLen, (devIdx, _) :: rest =>
      { index := devIdx % 256, flags := 67, metric := 1, mtu := 220, mtu6 := 220, bandwidth := 0
        hwAddrLen := hwAddrLen.toNat } :: arrivingFields (htonl hwAddrLen) rest

section Devices

variable (dpdkDevices : ℕ → Option DpdkDevice) (sockaddrDl : Vector UInt8 6)

@[simp]
theorem length_deviceRecord (hwAddrLen : UInt32) (devIdx : ℕ) (dev : DpdkDevice) :
    (deviceRecord sockaddrDl hwAddrLen devIdx dev).length = ifaceRecordSize := by
  have hname : dev.name.toList.length = 20 := Vector.length_toList
  simp [deviceRecord, ifaceRecordSize, hname]

theorem length_of_mem_deviceRecords {hwAddrLen : UInt32} {present : List (ℕ × DpdkDevice)}
    {r : List UInt8} (hr : r ∈ deviceRecords sockaddrDl hwAddrLen present) :
    r.length = ifaceRecordSize := by
  induction present generalizing hwAddrLen with
  | nil => cases hr
  | cons entry rest ih =>
      rcases List.mem_cons.mp hr with rfl | hrest
      · exact length_deviceRecord _ _ _ _
      · exact ih hrest

theorem foldl_devicesNext (l : DevicesLoop) (idxs : List ℕ) :
    (idxs.foldl (DevicesLoop.next dpdkDevices sockaddrDl) l).buf =
      l.buf ++ (deviceRecords sockaddrDl l.hwAddrLen
        (idxs.filterMap fun devIdx => (dpdkDevices devIdx).map (devIdx, ·))).flatten := by
  induction idxs generalizing l with
  | nil => simp [deviceRecords]
  | cons devIdx idxs ih =>
      rw [List.foldl_cons, ih, DevicesLoop.next]
      cases hdev : dpdkDevices devIdx with
      | none => simp [hdev]
      | some dev => simp [hdev, deviceRecords]

/-- `get_all_devices` writes one record for every device that is present. -/
theorem getAllDevices_eq :
    getAllDevices dpdkDevices sockaddrDl =
      (deviceRecords sockaddrDl deviceHwAddrLen (presentDevices dpdkDevices)).flatten := by
  rw [getAllDevices, foldl_devicesNext]
  rfl

/-- What arrives of a record. -/
theorem decodeIface_deviceRecord (hwAddrLen : UInt32) (devIdx : ℕ) (dev : DpdkDevice) :
    decodeIface (deviceRecord sockaddrDl (htonl hwAddrLen) devIdx dev) =
      { index := devIdx % 256, flags := 67, metric := 1, mtu := 220, mtu6 := 220, bandwidth := 0
        hwAddrLen := hwAddrLen.toNat, name := dev.name.toList, status := 0
        address := sockaddrDl.toList } := by
  have hindex : devIdx % 2 ^ 32 % 256 = devIdx % 256 :=
    Nat.mod_mod_of_dvd _ (Nat.pow_dvd_pow 2 (by decide : 8 ≤ 32))
  have hname : dev.name.toList.length = 20 := Vector.length_toList
  have hstatus : [(0 : UInt8)].length = 1 := rfl
  simp only [decodeIface, deviceRecord, splitAt_append hname,
    splitAt_append (length_encode32 _), splitAt_append (length_encode64 _),
    splitAt_append (length_memBytes32 _), splitAt_append hstatus,
    beValue_encode32, beValue_encode64, beValue_htonl, UInt32.toNat_ofNat', hindex]
  rfl

theorem arriving_deviceRecords (hwAddrLen : UInt32) (present : List (ℕ × DpdkDevice)) :
    (deviceRecords sockaddrDl hwAddrLen present).map (fun r => (decodeIface r).toIfaceFields) =
      arrivingFields hwAddrLen present := by
  induction present generalizing hwAddrLen with
  | nil => rfl
  | cons entry rest ih =>
      rw [deviceRecords, List.map_cons, ih, decodeIface_deviceRecord]
      rfl

theorem length_presentDevices : (presentDevices dpdkDevices).length ≤ rteMaxEthports := by
  have hle := List.length_filterMap_le
    (fun devIdx => (dpdkDevices devIdx).map (devIdx, ·)) (List.range rteMaxEthports)
  rwa [List.length_range] at hle

end Devices

section Addresses

variable (inetAddr : List UInt8 → UInt32) (dpdkDevices : ℕ → Option DpdkDevice)
  (dpdkDevConfig : ℕ → DevConfig)

/-- The indices that `get_all_addresses` writes a record for. -/
def announcedIndices : List ℕ :=
  (List.range rteMaxEthports).filter fun devIdx =>
    (dpdkDevices devIdx).isSome ∧ (dpdkDevConfig devIdx).portNumber ≠ -1

@[simp]
theorem length_addressRecord (devIdx : ℕ) (line : DevConfig) :
    (addressRecord inetAddr devIdx line).length = addressRecordSize := by
  simp [addressRecord, addressRecordSize]

/-- `get_all_addresses` writes one record for every device in use on its line. -/
theorem getAllAddresses_eq :
    getAllAddresses inetAddr dpdkDevices dpdkDevConfig =
      ((announcedIndices dpdkDevices dpdkDevConfig).map fun devIdx =>
        addressRecord inetAddr devIdx (dpdkDevConfig devIdx)).flatten := by
  suffices hloop : ∀ (idxs : List ℕ) (buf : List UInt8),
      idxs.foldl (addressesNext inetAddr dpdkDevices dpdkDevConfig) buf =
        buf ++ ((idxs.filter fun devIdx => (dpdkDevices devIdx).isSome ∧
          (dpdkDevConfig devIdx).portNumber ≠ -1).map fun devIdx =>
            addressRecord inetAddr devIdx (dpdkDevConfig devIdx)).flatten from
    hloop (List.range rteMaxEthports) []
  intro idxs
  induction idxs with
  | nil => simp
  | cons devIdx idxs ih =>
      intro buf
      rw [List.foldl_cons, ih, addressesNext, List.filter_cons]
      by_cases hused : (dpdkDevices devIdx).isSome ∧ (dpdkDevConfig devIdx).portNumber ≠ -1
      · simp [hused]
      · simp only [hused, if_false, decide_false, Bool.false_eq_true]

/-- What arrives of a record. -/
theorem decodeAddress_addressRecord (devIdx : ℕ) (line : DevConfig) :
    decodeAddress (addressRecord inetAddr devIdx line) =
      { index := devIdx % 256, flags := 67, family := 2
        address := memBytes32 (inetAddr line.ipAddrStr), prefixLen := 32 } := by
  have hindex : devIdx % 2 ^ 32 % 256 = devIdx % 256 :=
    Nat.mod_mod_of_dvd _ (Nat.pow_dvd_pow 2 (by decide : 8 ≤ 32))
  have hbyte : ∀ b : UInt8, [b].length = 1 := fun _ => rfl
  simp only [decodeAddress, addressRecord, splitAt_append (length_encode32 _),
    splitAt_append (hbyte _), splitAt_append (length_memBytes32 _), beValue_encode32,
    UInt32.toNat_ofNat', hindex]
  rfl

theorem length_announcedIndices :
    (announcedIndices dpdkDevices dpdkDevConfig).length ≤ rteMaxEthports := by
  have hle := List.length_filter_le (fun devIdx =>
    decide ((dpdkDevices devIdx).isSome ∧ (dpdkDevConfig devIdx).portNumber ≠ -1))
    (List.range rteMaxEthports)
  rwa [List.length_range] at hle

end Addresses

/-! ## Whole updates -/

section Update

variable {inetAddr : List UInt8 → UInt32} {dpdkDevices : ℕ → Option DpdkDevice}
  {dpdkDevConfig : ℕ → DevConfig} {sockaddrDl : Vector UInt8 6}

/-- An update that fits the length field is handed over whole. -/
theorem handed_of {kind : UpdateKind} {written : List UInt8} (hfit : written.length < 65535) :
    (UpdateMbuf.of kind written).dataLen = written.length + 1 ∧
      (UpdateMbuf.of kind written).handed = written := by
  have hlen : (UpdateMbuf.of kind written).dataLen = written.length + 1 :=
    Nat.mod_eq_of_lt (Nat.succ_lt_succ hfit)
  refine ⟨hlen, ?_⟩
  rw [UpdateMbuf.handed, hlen]
  exact List.take_length

theorem length_getAllDevices : (getAllDevices dpdkDevices sockaddrDl).length < 65535 := by
  have hcount : (deviceRecords sockaddrDl deviceHwAddrLen (presentDevices dpdkDevices)).length =
      (presentDevices dpdkDevices).length := by
    generalize deviceHwAddrLen = hwAddrLen
    induction presentDevices dpdkDevices generalizing hwAddrLen with
    | nil => rfl
    | cons entry rest ih => rw [deviceRecords, List.length_cons, ih, List.length_cons]
  rw [getAllDevices_eq,
    length_flatten_records fun r hr => length_of_mem_deviceRecords sockaddrDl hr, hcount]
  have hle := length_presentDevices dpdkDevices
  unfold rteMaxEthports at hle
  unfold ifaceRecordSize
  omega

theorem length_getAllAddresses :
    (getAllAddresses inetAddr dpdkDevices dpdkDevConfig).length < 65535 := by
  have hle := length_announcedIndices dpdkDevices dpdkDevConfig
  rw [getAllAddresses_eq, @length_flatten_records addressRecordSize, List.length_map]
  · unfold rteMaxEthports at hle
    unfold addressRecordSize
    omega
  · intro r hr
    obtain ⟨devIdx, -, rfl⟩ := List.mem_map.mp hr
    exact length_addressRecord _ _ _

/-- What a client reads in NEW_IFACES. -/
theorem newIfaces_arrives :
    (decodeIfaces (UpdateMbuf.of .newIfaces (getAllDevices dpdkDevices sockaddrDl)).handed).map
        (List.map (·.toIfaceFields)) =
      some (arrivingFields deviceHwAddrLen (presentDevices dpdkDevices)) := by
  rw [(handed_of length_getAllDevices).2, getAllDevices_eq, decodeIfaces,
    splitRecords_flatten (by decide) fun r hr => length_of_mem_deviceRecords sockaddrDl hr,
    Option.map_some, Option.map_some, List.map_map]
  exact congrArg some (arriving_deviceRecords _ _ _)

/-- What a client reads in NEW_ADDRESSES. -/
theorem newAddresses_arrives :
    decodeAddresses (UpdateMbuf.of .newAddresses
        (getAllAddresses inetAddr dpdkDevices dpdkDevConfig)).handed =
      some ((announcedIndices dpdkDevices dpdkDevConfig).map fun devIdx =>
        { index := devIdx, flags := 67, family := 2
          address := memBytes32 (inetAddr (dpdkDevConfig devIdx).ipAddrStr)
          prefixLen := 32 }) := by
  have hrecords : ∀ r ∈ (announcedIndices dpdkDevices dpdkDevConfig).map fun devIdx =>
      addressRecord inetAddr devIdx (dpdkDevConfig devIdx), r.length = addressRecordSize := by
    intro r hr
    obtain ⟨devIdx, -, rfl⟩ := List.mem_map.mp hr
    exact length_addressRecord _ _ _
  rw [(handed_of length_getAllAddresses).2, getAllAddresses_eq, decodeAddresses,
    splitRecords_flatten (by decide) hrecords, Option.map_some, List.map_map, Option.some.injEq]
  apply List.map_congr_left
  intro devIdx hmem
  have hlt : devIdx < rteMaxEthports := List.mem_range.mp (List.mem_filter.mp hmem).1
  have hsmall : devIdx % 256 = devIdx := Nat.mod_eq_of_lt (Nat.lt_trans hlt (by decide))
  rw [Function.comp_apply, decodeAddress_addressRecord, hsmall]

end Update

/-- The numbers that `get_all_devices` gives the encoders for a device. -/
def givenFields (devIdx : ℕ) : IfaceFields where
  index := devIdx
  flags := deviceFlags.toNat
  metric := deviceMetric.toNat
  mtu := deviceMtu.toNat
  mtu6 := deviceMtu6.toNat
  bandwidth := deviceBandwidth.toNat
  hwAddrLen := deviceHwAddrLen.toNat

/-- A client reads in the updates what the encoders were given. -/
structure UpdatesDecodeBack (inetAddr : List UInt8 → UInt32) (dpdkDevices : ℕ → Option DpdkDevice)
    (dpdkDevConfig : ℕ → DevConfig) (sockaddrDl : Vector UInt8 6) : Prop where
  ifaces : (decodeIfaces (UpdateMbuf.of .newIfaces
      (getAllDevices dpdkDevices sockaddrDl)).handed).map (List.map (·.toIfaceFields)) =
    some ((presentDevices dpdkDevices).map fun entry => givenFields entry.1)
  ifacesLen : (UpdateMbuf.of .newIfaces (getAllDevices dpdkDevices sockaddrDl)).dataLen =
    1 + (getAllDevices dpdkDevices sockaddrDl).length
  addresses : (decodeAddresses (UpdateMbuf.of .newAddresses
      (getAllAddresses inetAddr dpdkDevices dpdkDevConfig)).handed).map (List.map (·.index)) =
    some (announcedIndices dpdkDevices dpdkDevConfig)
  addressesLen : (UpdateMbuf.of .newAddresses
      (getAllAddresses inetAddr dpdkDevices dpdkDevConfig)).dataLen =
    1 + (getAllAddresses inetAddr dpdkDevices dpdkDevConfig).length

section DecodeBack

variable (inetAddr : List UInt8 → UInt32) (dpdkDevices : ℕ → Option DpdkDevice)
  (dpdkDevConfig : ℕ → DevConfig) (sockaddrDl : Vector UInt8 6)

/-- The lengths and the indices of the addresses always come through. -/
theorem updatesDecodeBack_of_ifaces
    (hifaces : arrivingFields deviceHwAddrLen (presentDevices dpdkDevices) =
      (presentDevices dpdkDevices).map fun entry => givenFields entry.1) :
    UpdatesDecodeBack inetAddr dpdkDevices dpdkDevConfig sockaddrDl where
  ifaces := by rw [newIfaces_arrives, hifaces]
  ifacesLen := by rw [(handed_of length_getAllDevices).1, Nat.add_comm]
  addresses := by
    rw [newAddresses_arrives, Option.map_some, List.map_map]
    exact congrArg some (List.map_id _)
  addressesLen := by rw [(handed_of length_getAllAddresses).1, Nat.add_comm]

/-- The MTU of a device never arrives. -/
theorem not_updatesDecodeBack {entry : ℕ × DpdkDevice} {rest : List (ℕ × DpdkDevice)}
    (hpresent : presentDevices dpdkDevices = entry :: rest) :
    ¬ UpdatesDecodeBack inetAddr dpdkDevices dpdkDevConfig sockaddrDl := by
  intro hback
  have hifaces := hback.ifaces
  rw [newIfaces_arrives, hpresent, Option.some.injEq, arrivingFields, List.map_cons] at hifaces
  have hmtu := congrArg IfaceFields.mtu (List.cons.inj hifaces).1
  exact absurd hmtu (by decide : (220 : ℕ) ≠ 1500)

/-- The updates come through as they were given exactly when no device is present. -/
theorem updates_decode_back_iff :
    UpdatesDecodeBack inetAddr dpdkDevices dpdkDevConfig sockaddrDl ↔
      ∀ devIdx < rteMaxEthports, dpdkDevices devIdx = none := by
  have hnil : presentDevices dpdkDevices = [] ↔
      ∀ devIdx < rteMaxEthports, dpdkDevices devIdx = none := by
    simp [presentDevices, List.filterMap_eq_nil_iff]
  rw [← hnil]
  constructor
  · intro hback
    cases hpresent : presentDevices dpdkDevices with
    | nil => rfl
    | cons entry rest =>
        exact absurd hback (not_updatesDecodeBack inetAddr dpdkDevices dpdkDevConfig sockaddrDl
          hpresent)
  · intro hpresent
    apply updatesDecodeBack_of_ifaces
    rw [hpresent]
    rfl

end DecodeBack

/-- One device, `dpdk0`, and nothing configured. -/
def oneDevice (devIdx : ℕ) : Option DpdkDevice :=
  if devIdx = 0 then some ⟨#v[100, 112, 100, 107, 48, 0, 0, 0, 0, 0, 0, 0, 0, 0, 0, 0, 0, 0, 0, 0]⟩
  else none

/-- The MTU of 1500 arrives as 220. -/
theorem updates_not_decode_back :
    ¬ UpdatesDecodeBack (fun _ => 0xFFFFFFFF) oneDevice (fun _ => ⟨-1, [], []⟩)
      (Vector.replicate 6 0) := by
  have hpresent : ∃ dev, presentDevices oneDevice = [(0, dev)] := ⟨_, rfl⟩
  obtain ⟨dev, hdev⟩ := hpresent
  exact not_updatesDecodeBack _ _ _ _ hdev

end IpAugenblick
