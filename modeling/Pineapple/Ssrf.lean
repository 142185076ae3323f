import Pineapple.Lib.AddressBlock

/-! # Which addresses the guards refuse (`ssrf.cpp`, `ssrf.go`, `TransformRemotePineapple.java`)

Each engine has a predicate of its own. The blocks that the C++ guard documents are stated beside it, and each
predicate is compared with the blocks it covers. -/

namespace Pineapple.Ssrf
open Address

/-- A destination; the zone is an IPv6 scope. -/
inductive Destination
  | v4 (a : BitVec 32)
  | v6 (a : BitVec 128) (zone : Option (List Char))
deriving DecidableEq

def dotted (a b c d : BitVec 8) : BitVec 32 :=
  BitVec.ofNat 32 (a.toNat * 2 ^ 24 + b.toNat * 2 ^ 16 + c.toNat * 2 ^ 8 + d.toNat)

/-- `IN6_IS_ADDR_V4MAPPED`; `To4` of the Go library asks the same. -/
def isV4Mapped (a : BitVec 128) : Bool :=
  (List.range 10).all (octet a · = 0) && octet a 10 = 0xff && octet a 11 = 0xff

/-- The last four octets. -/
def embedded (a : BitVec 128) : BitVec 32 := a.setWidth 32

/-! ## C++ -/

def ipv4IsPrivate (ip : BitVec 32) : Bool :=
  let a := octet ip 0
  let b := octet ip 1
  let c := octet ip 2
  if a = 0 ∨ a = 10 ∨ a = 127 then true
  else if a = 172 ∧ b &&& 0xf0 = 16 then true
  else if a = 169 ∧ b = 254 then true
  else if a = 192 ∧ b = 168 then true
  else if a = 100 ∧ b &&& 0xc0 = 64 then true
  else if a = 192 ∧ b = 0 ∧ c = 0 then true
  else if a = 192 ∧ b = 0 ∧ c = 2 then true
  else if a = 192 ∧ b = 88 ∧ c = 99 then true
  else if a = 198 ∧ b = 51 ∧ c = 100 then true
  else if a = 203 ∧ b = 0 ∧ c = 113 then true
  else if a = 198 ∧ (b = 18 ∨ b = 19) then true
  else if a ≥ 224 then true
  else false

def isLinkLocal (a : BitVec 128) : Bool := octet a 0 = 0xfe && octet a 1 &&& 0xc0 = 0x80

def isSiteLocal (a : BitVec 128) : Bool := octet a 0 = 0xfe && octet a 1 &&& 0xc0 = 0xc0

def isUniqueLocal (a : BitVec 128) : Bool := octet a 0 &&& 0xfe = 0xfc

def ipv6IsPrivate (a : BitVec 128) : Bool :=
  if a = 1 then true
  else if isLinkLocal a then true
  else if isSiteLocal a then true
  else if a = 0 then true
  else if octet a 0 = 0xff then true
  else if isUniqueLocal a then true
  else if octet a 0 = 0x01 ∧ octet a 1 = 0 ∧ octet a 2 = 0 ∧ octet a 3 = 0 ∧ octet a 4 = 0 ∧ octet a 5 = 0 ∧
      octet a 6 = 0 ∧ octet a 7 = 0 then true
  else if octet a 0 = 0x20 ∧ octet a 1 = 0x01 ∧ octet a 2 = 0x0d ∧ octet a 3 = 0xb8 then true
  else if isV4Mapped a then ipv4IsPrivate (embedded a)
  else false

def sockaddrIsPrivate : Destination → Bool
  | .v4 a => ipv4IsPrivate a
  | .v6 a _ => ipv6IsPrivate a

/-! ## Go -/

/-- `net.ParseIP`: sixteen octets, and nothing for an address with a zone. -/
def parseIP : Destination → Option (BitVec 128)
  | .v4 a => some (BitVec.ofNat 128 (0xffff * 2 ^ 32 + a.toNat))
  | .v6 a none => some a
  | .v6 _ (some _) => none

def to4 (ip : BitVec 128) : Option (BitVec 32) := if isV4Mapped ip then some (embedded ip) else none

namespace Go

def isLoopback (ip : BitVec 128) : Bool :=
  match to4 ip with
  | some ip4 => octet ip4 0 = 127
  | none => ip = 1

def isPrivate (ip : BitVec 128) : Bool :=
  match to4 ip with
  | some ip4 => octet ip4 0 = 10 || (octet ip4 0 = 172 && octet ip4 1 &&& 0xf0 = 16) ||
      (octet ip4 0 = 192 && octet ip4 1 = 168)
  | none => isUniqueLocal ip

def isLinkLocalUnicast (ip : BitVec 128) : Bool :=
  match to4 ip with
  | some ip4 => octet ip4 0 = 169 && octet ip4 1 = 254
  | none => isLinkLocal ip

def isLinkLocalMulticast (ip : BitVec 128) : Bool :=
  match to4 ip with
  | some ip4 => octet ip4 0 = 224 && octet ip4 1 = 0 && octet ip4 2 = 0
  | none => octet ip 0 = 0xff && octet ip 1 &&& 0x0f = 0x02

end Go

def isPrivateIP (ip : BitVec 128) : Bool :=
  Go.isLoopback ip || Go.isPrivate ip || Go.isLinkLocalUnicast ip || Go.isLinkLocalMulticast ip

/-- `ip != nil && isPrivateIP(ip)`. -/
def goRefuses (d : Destination) : Bool := (parseIP d).any isPrivateIP

/-! ## Java -/

/-- `InetAddress` holds an IPv4-mapped address as IPv4. -/
def inetAddress : Destination → Destination
  | .v4 a => .v4 a
  | .v6 a zone => if isV4Mapped a then .v4 (embedded a) else .v6 a zone

namespace Java

def isLoopbackAddress : Destination → Bool
  | .v4 a => octet a 0 = 127
  | .v6 a _ => a = 1

def isSiteLocalAddress : Destination → Bool
  | .v4 a => octet a 0 = 10 || (octet a 0 = 172 && octet a 1 &&& 0xf0 = 16) || (octet a 0 = 192 && octet a 1 = 168)
  | .v6 a _ => isSiteLocal a

def isLinkLocalAddress : Destination → Bool
  | .v4 a => octet a 0 = 169 && octet a 1 = 254
  | .v6 a _ => isLinkLocal a

/-- `raw.length == 16` and the mask of `fc00::/7`. -/
def isUniqueLocalAddress : Destination → Bool
  | .v4 _ => false
  | .v6 a _ => isUniqueLocal a

end Java

def isPrivateAddress (d : Destination) : Bool :=
  if Java.isLoopbackAddress d || Java.isSiteLocalAddress d || Java.isLinkLocalAddress d then true
  else Java.isUniqueLocalAddress d

def javaRefuses (d : Destination) : Bool := isPrivateAddress (inetAddress d)

/-! ## The blocks -/

/-- Those that the C++ guard lists, in the order of its tests. -/
def ipv4Blocks : List (Block 32) :=
  [⟨dotted 0 0 0 0, 8⟩, ⟨dotted 10 0 0 0, 8⟩, ⟨dotted 127 0 0 0, 8⟩, ⟨dotted 172 16 0 0, 12⟩, ⟨dotted 169 254 0 0, 16⟩,
    ⟨dotted 192 168 0 0, 16⟩, ⟨dotted 100 64 0 0, 10⟩, ⟨dotted 192 0 0 0, 24⟩, ⟨dotted 192 0 2 0, 24⟩,
    ⟨dotted 192 88 99 0, 24⟩, ⟨dotted 198 51 100 0, 24⟩, ⟨dotted 203 0 113 0, 24⟩, ⟨dotted 198 18 0 0, 15⟩,
    ⟨dotted 224 0 0 0, 4⟩, ⟨dotted 240 0 0 0, 4⟩]

/-- `hextets` of the leading 64 bits. -/
def leading (a b c d : BitVec 16) : BitVec 128 :=
  BitVec.ofNat 128 ((a.toNat * 2 ^ 48 + b.toNat * 2 ^ 32 + c.toNat * 2 ^ 16 + d.toNat) * 2 ^ 64)

def ipv6Blocks : List (Block 128) :=
  [⟨1, 128⟩, ⟨leading 0xfe80 0 0 0, 10⟩, ⟨leading 0xfec0 0 0 0, 10⟩, ⟨0, 128⟩, ⟨leading 0xff00 0 0 0, 8⟩,
    ⟨leading 0xfc00 0 0 0, 7⟩, ⟨leading 0x100 0 0 0, 64⟩, ⟨leading 0x2001 0xdb8 0 0, 32⟩]

/-- `::ffff:0:0/96`. -/
def mappedBlock : Block 128 := ⟨BitVec.ofNat 128 (0xffff * 2 ^ 32), 96⟩

def ListedV4 (a : BitVec 32) : Prop := ∃ block ∈ ipv4Blocks, block.Contains a

/-- In a range that the C++ guard lists, as it is or mapped into IPv6. -/
def Listed : Destination → Prop
  | .v4 a => ListedV4 a
  | .v6 a _ => (∃ block ∈ ipv6Blocks, block.Contains a) ∨ (mappedBlock.Contains a ∧ ListedV4 (embedded a))

/-- Loopback, link-local and the private ranges: what all three guards know. -/
def commonV4Blocks : List (Block 32) :=
  [⟨dotted 127 0 0 0, 8⟩, ⟨dotted 10 0 0 0, 8⟩, ⟨dotted 172 16 0 0, 12⟩, ⟨dotted 192 168 0 0, 16⟩,
    ⟨dotted 169 254 0 0, 16⟩]

def commonV6Blocks : List (Block 128) :=
  [⟨1, 128⟩, ⟨leading 0xfe80 0 0 0, 10⟩, ⟨leading 0xfc00 0 0 0, 7⟩]

def CommonV4 (a : BitVec 32) : Prop := ∃ block ∈ commonV4Blocks, block.Contains a

/-- In a range all three guards know, and without a zone. -/
def Common : Destination → Prop
  | .v4 a => CommonV4 a
  | .v6 a zone => zone = none ∧
      ((∃ block ∈ commonV6Blocks, block.Contains a) ∨ (mappedBlock.Contains a ∧ CommonV4 (embedded a)))

/-! ## Octets and blocks -/

theorem toNat_dotted (a b c d : BitVec 8) :
    (dotted a b c d).toNat = a.toNat * 2 ^ 24 + b.toNat * 2 ^ 16 + c.toNat * 2 ^ 8 + d.toNat := by
  unfold dotted
  rw [BitVec.toNat_ofNat, Nat.mod_eq_of_lt]
  omega

section
variable {ip : BitVec 32}

theorem contains_8 (a : BitVec 8) : (⟨dotted a 0 0 0, 8⟩ : Block 32).Contains ip ↔ octet ip 0 = a := by
  rw [Block.contains_iff, octet_eq_iff, toNat_dotted]
  simp
  omega

theorem contains_16 (a b : BitVec 8) :
    (⟨dotted a b 0 0, 16⟩ : Block 32).Contains ip ↔ octet ip 0 = a ∧ octet ip 1 = b := by
  rw [Block.contains_iff, octet_eq_iff, octet_eq_iff, toNat_dotted]
  simp
  omega

theorem contains_24 (a b c : BitVec 8) :
    (⟨dotted a b c 0, 24⟩ : Block 32).Contains ip ↔ octet ip 0 = a ∧ octet ip 1 = b ∧ octet ip 2 = c := by
  rw [Block.contains_iff, octet_eq_iff, octet_eq_iff, octet_eq_iff, toNat_dotted]
  simp
  omega

theorem contains_172 : (⟨dotted 172 16 0 0, 12⟩ : Block 32).Contains ip ↔ octet ip 0 = 172 ∧ octet ip 1 &&& 0xf0 = 16 := by
  rw [Block.contains_iff, octet_eq_iff, toNat_dotted, show (0xf0 : BitVec 8) = BitVec.allOnes 8 <<< 4 from rfl,
    and_leading_eq_iff rfl, toNat_octet]
  simp
  omega

theorem contains_100 : (⟨dotted 100 64 0 0, 10⟩ : Block 32).Contains ip ↔ octet ip 0 = 100 ∧ octet ip 1 &&& 0xc0 = 64 := by
  rw [Block.contains_iff, octet_eq_iff, toNat_dotted, show (0xc0 : BitVec 8) = BitVec.allOnes 8 <<< 6 from rfl,
    and_leading_eq_iff rfl, toNat_octet]
  simp
  omega

theorem contains_198 : (⟨dotted 198 18 0 0, 15⟩ : Block 32).Contains ip ↔
    octet ip 0 = 198 ∧ (octet ip 1 = 18 ∨ octet ip 1 = 19) := by
  rw [Block.contains_iff, octet_eq_iff, octet_eq_iff, octet_eq_iff, toNat_dotted]
  simp
  omega

theorem contains_224 : (⟨dotted 224 0 0 0, 4⟩ : Block 32).Contains ip ∨ (⟨dotted 240 0 0 0, 4⟩ : Block 32).Contains ip ↔
    octet ip 0 ≥ 224 := by
  rw [Block.contains_iff, Block.contains_iff, ge_iff_le, BitVec.le_def, toNat_octet, toNat_dotted, toNat_dotted]
  simp
  omega

theorem listedV4_iff : ListedV4 ip ↔ ipv4IsPrivate ip = true := by
  unfold ListedV4 ipv4Blocks
  simp only [List.mem_cons, List.not_mem_nil, exists_eq_or_imp, contains_8, contains_16, contains_24, contains_172,
    contains_100, contains_198, contains_224, exists_eq_left, or_false]
  simp [ipv4IsPrivate, or_assoc]

theorem commonV4_iff : CommonV4 ip ↔ octet ip 0 = 127 ∨ octet ip 0 = 10 ∨
    (octet ip 0 = 172 ∧ octet ip 1 &&& 0xf0 = 16) ∨ (octet ip 0 = 192 ∧ octet ip 1 = 168) ∨
    (octet ip 0 = 169 ∧ octet ip 1 = 254) := by
  unfold CommonV4 commonV4Blocks
  simp only [List.mem_cons, List.not_mem_nil, exists_eq_or_imp, contains_8, contains_16, contains_172,
    exists_eq_left, or_false]

end

theorem toNat_leading (a b c d : BitVec 16) : (leading a b c d).toNat =
    (a.toNat * 2 ^ 48 + b.toNat * 2 ^ 32 + c.toNat * 2 ^ 16 + d.toNat) * 2 ^ 64 := by
  unfold leading
  rw [BitVec.toNat_ofNat, Nat.mod_eq_of_lt]
  omega

section
variable {a : BitVec 128}

theorem contains_128 (b : BitVec 128) : (⟨b, 128⟩ : Block 128).Contains a ↔ a = b := by
  rw [Block.contains_iff]
  simp [BitVec.toNat_inj]

theorem contains_linkLocal : (⟨leading 0xfe80 0 0 0, 10⟩ : Block 128).Contains a ↔ isLinkLocal a = true := by
  unfold isLinkLocal
  rw [Bool.and_eq_true, decide_eq_true_iff, decide_eq_true_iff, Block.contains_iff, octet_eq_iff, toNat_leading,
    show (0xc0 : BitVec 8) = BitVec.allOnes 8 <<< 6 from rfl, and_leading_eq_iff rfl, toNat_octet]
  simp
  omega

theorem contains_siteLocal : (⟨leading 0xfec0 0 0 0, 10⟩ : Block 128).Contains a ↔ isSiteLocal a = true := by
  unfold isSiteLocal
  rw [Bool.and_eq_true, decide_eq_true_iff, decide_eq_true_iff, Block.contains_iff, octet_eq_iff, toNat_leading,
    show octet a 1 &&& 0xc0 = 0xc0 ↔ octet a 1 &&& (BitVec.allOnes 8 <<< 6) = 0xc0 from Iff.rfl,
    and_leading_eq_iff rfl, toNat_octet]
  simp
  omega

theorem contains_uniqueLocal : (⟨leading 0xfc00 0 0 0, 7⟩ : Block 128).Contains a ↔ isUniqueLocal a = true := by
  unfold isUniqueLocal
  rw [decide_eq_true_iff, Block.contains_iff, toNat_leading,
    show (0xfe : BitVec 8) = BitVec.allOnes 8 <<< 1 from rfl, and_leading_eq_iff rfl, toNat_octet]
  simp
  omega

theorem contains_multicast : (⟨leading 0xff00 0 0 0, 8⟩ : Block 128).Contains a ↔ octet a 0 = 0xff := by
  rw [Block.contains_iff, octet_eq_iff, toNat_leading]
  simp
  omega

theorem contains_discard : (⟨leading 0x100 0 0 0, 64⟩ : Block 128).Contains a ↔
    octet a 0 = 0x01 ∧ octet a 1 = 0 ∧ octet a 2 = 0 ∧ octet a 3 = 0 ∧ octet a 4 = 0 ∧ octet a 5 = 0 ∧
      octet a 6 = 0 ∧ octet a 7 = 0 := by
  simp only [Block.contains_iff, octet_eq_iff, toNat_leading]
  simp
  omega

theorem contains_documentation : (⟨leading 0x2001 0xdb8 0 0, 32⟩ : Block 128).Contains a ↔
    octet a 0 = 0x20 ∧ octet a 1 = 0x01 ∧ octet a 2 = 0x0d ∧ octet a 3 = 0xb8 := by
  simp only [Block.contains_iff, octet_eq_iff, toNat_leading]
  simp
  omega

theorem contains_mapped : mappedBlock.Contains a ↔ isV4Mapped a = true := by
  unfold isV4Mapped mappedBlock
  rw [show List.range 10 = [0, 1, 2, 3, 4, 5, 6, 7, 8, 9] from rfl]
  simp only [Block.contains_iff, Bool.and_eq_true, decide_eq_true_iff, List.all_cons, List.all_nil, octet_eq_iff]
  simp
  omega

theorem listed_v6_iff {zone : Option (List Char)} : Listed (.v6 a zone) ↔ ipv6IsPrivate a = true := by
  unfold Listed ipv6Blocks
  simp only [List.mem_cons, List.not_mem_nil, exists_eq_or_imp, contains_128, contains_linkLocal, contains_siteLocal,
    contains_uniqueLocal, contains_multicast, contains_discard, contains_documentation, contains_mapped, listedV4_iff,
    exists_eq_left, or_false]
  simp [ipv6IsPrivate, or_assoc]


/-! ## Go and Java -/

theorem mapped_octets (h : isV4Mapped a = true) : octet a 0 = 0 ∧ octet a 10 = 0xff := by
  unfold isV4Mapped at h
  simp only [Bool.and_eq_true, decide_eq_true_iff, List.all_eq_true] at h
  exact ⟨h.1.1 0 (by simp), h.1.2⟩

/-- An IPv4-mapped address is in none of the other blocks. -/
theorem mapped_disjoint (h : isV4Mapped a = true) :
    a ≠ 1 ∧ isLinkLocal a = false ∧ isUniqueLocal a = false := by
  obtain ⟨hzero, hten⟩ := mapped_octets h
  refine ⟨?_, ?_, ?_⟩
  · rintro rfl
    cases hten
  · simp [isLinkLocal, hzero]
  · simp [isUniqueLocal, hzero]

theorem siteLocal_multicast (h : isSiteLocal a = true) : octet a 0 ≠ 0xff := by
  unfold isSiteLocal at h
  simp only [Bool.and_eq_true, decide_eq_true_iff] at h
  rw [h.1]
  decide

theorem to4_parseIP (ip : BitVec 32) : to4 (BitVec.ofNat 128 (0xffff * 2 ^ 32 + ip.toNat)) = some ip := by
  have hmapped : isV4Mapped (BitVec.ofNat 128 (0xffff * 2 ^ 32 + ip.toNat)) = true := by
    rw [← contains_mapped, Block.contains_iff]
    simp [mappedBlock]
    omega
  unfold to4 embedded
  rw [if_pos hmapped]
  congr 1
  apply BitVec.eq_of_toNat_eq
  simp
  omega

/-- What the guards of Go and Java ask of an IPv4 address. -/
theorem java_v4_iff {ip : BitVec 32} : isPrivateAddress (.v4 ip) = true ↔ CommonV4 ip := by
  rw [commonV4_iff]
  simp [isPrivateAddress, Java.isLoopbackAddress, Java.isSiteLocalAddress, Java.isLinkLocalAddress,
    Java.isUniqueLocalAddress, or_assoc]

theorem go_v4_iff {ip : BitVec 128} {ip4 : BitVec 32} (h : to4 ip = some ip4) :
    isPrivateIP ip = true ↔ CommonV4 ip4 ∨ (octet ip4 0 = 224 ∧ octet ip4 1 = 0 ∧ octet ip4 2 = 0) := by
  rw [commonV4_iff]
  simp [isPrivateIP, Go.isLoopback, Go.isPrivate, Go.isLinkLocalUnicast, Go.isLinkLocalMulticast, h, or_assoc, and_assoc]

theorem javaRefuses_mapped {zone : Option (List Char)} (h : isV4Mapped a = true) :
    javaRefuses (.v6 a zone) = isPrivateAddress (.v4 (embedded a)) := by
  unfold javaRefuses
  exact congrArg _ (if_pos h)

theorem javaRefuses_v6 {zone : Option (List Char)} (h : isV4Mapped a = false) :
    javaRefuses (.v6 a zone) = isPrivateAddress (.v6 a zone) := by
  unfold javaRefuses
  exact congrArg _ (if_neg (Bool.eq_false_iff.mp h))

theorem java_v6_iff {zone : Option (List Char)} (h : isV4Mapped a = false) : javaRefuses (.v6 a zone) = true ↔
    a = 1 ∨ isSiteLocal a = true ∨ isLinkLocal a = true ∨ isUniqueLocal a = true := by
  rw [javaRefuses_v6 h]
  simp [isPrivateAddress, Java.isLoopbackAddress, Java.isSiteLocalAddress, Java.isLinkLocalAddress,
    Java.isUniqueLocalAddress, or_assoc]

theorem go_v6_iff (h : isV4Mapped a = false) : isPrivateIP a = true ↔
    a = 1 ∨ isUniqueLocal a = true ∨ isLinkLocal a = true ∨ (octet a 0 = 0xff ∧ octet a 1 &&& 0x0f = 0x02) := by
  have hto4 : to4 a = none := by simp [to4, h]
  simp [isPrivateIP, Go.isLoopback, Go.isPrivate, Go.isLinkLocalUnicast, Go.isLinkLocalMulticast, hto4, or_assoc]

theorem common_v6_iff {zone : Option (List Char)} : Common (.v6 a zone) ↔ zone = none ∧
    ((a = 1 ∨ isLinkLocal a = true ∨ isUniqueLocal a = true) ∨ (isV4Mapped a = true ∧ CommonV4 (embedded a))) := by
  unfold Common commonV6Blocks
  simp only [List.mem_cons, List.not_mem_nil, exists_eq_or_imp, contains_128, contains_linkLocal,
    contains_uniqueLocal, contains_mapped, exists_eq_left, or_false]

end

/-! ## The three together -/

theorem listed_iff {d : Destination} : Listed d ↔ sockaddrIsPrivate d = true := by
  cases d with
  | v4 ip => exact listedV4_iff
  | v6 a zone => exact listed_v6_iff

theorem commonV4Blocks_subset : commonV4Blocks ⊆ ipv4Blocks := by decide

theorem commonV6Blocks_subset : commonV6Blocks ⊆ ipv6Blocks := by decide

theorem CommonV4.listed {ip : BitVec 32} (h : CommonV4 ip) : ListedV4 ip := by
  obtain ⟨block, hblock, hc⟩ := h
  exact ⟨block, commonV4Blocks_subset hblock, hc⟩

theorem listed_of_linkLocalMulticast {ip : BitVec 32} (h : octet ip 0 = 224) : ListedV4 ip := by
  rw [listedV4_iff]
  simp [ipv4IsPrivate, h]

theorem Common.listed {d : Destination} (h : Common d) : Listed d := by
  cases d with
  | v4 ip => exact CommonV4.listed h
  | v6 a zone =>
    obtain ⟨_, ⟨block, hblock, hc⟩ | ⟨hmapped, hcommon⟩⟩ := h
    · exact .inl ⟨block, commonV6Blocks_subset hblock, hc⟩
    · exact .inr ⟨hmapped, hcommon.listed⟩

/-- What the Go guard refuses is listed. -/
theorem listed_of_go {d : Destination} (h : goRefuses d = true) : Listed d := by
  cases d with
  | v4 ip =>
    rcases (go_v4_iff (to4_parseIP ip)).mp h with hcommon | ⟨h224, _⟩
    · exact hcommon.listed
    · exact listed_of_linkLocalMulticast h224
  | v6 a zone =>
    cases zone with
    | some z => cases h
    | none =>
      cases hmapped : isV4Mapped a with
      | true =>
        rcases (go_v4_iff (if_pos hmapped)).mp h with hcommon | ⟨h224, _⟩
        · exact .inr ⟨contains_mapped.mpr hmapped, hcommon.listed⟩
        · exact .inr ⟨contains_mapped.mpr hmapped, listed_of_linkLocalMulticast h224⟩
      | false =>
        rw [listed_v6_iff]
        rcases (go_v6_iff hmapped).mp h with h | h | h | ⟨h, _⟩ <;> simp [ipv6IsPrivate, h]

/-- What the Java guard refuses is listed. -/
theorem listed_of_java {d : Destination} (h : javaRefuses d = true) : Listed d := by
  cases d with
  | v4 ip => exact (java_v4_iff.mp h).listed
  | v6 a zone =>
    cases hmapped : isV4Mapped a with
    | true =>
      rw [javaRefuses_mapped hmapped] at h
      exact .inr ⟨contains_mapped.mpr hmapped, (java_v4_iff.mp h).listed⟩
    | false =>
      rw [listed_v6_iff]
      rcases (java_v6_iff hmapped).mp h with h | h | h | h <;> simp [ipv6IsPrivate, h]

/-- What Go and Java both refuse. -/
theorem common_iff {d : Destination} : Common d ↔ goRefuses d = true ∧ javaRefuses d = true := by
  cases d with
  | v4 ip =>
    refine Iff.trans ?_ (and_congr (go_v4_iff (to4_parseIP ip)).symm java_v4_iff.symm)
    exact ⟨fun h => ⟨.inl h, h⟩, fun h => h.2⟩
  | v6 a zone =>
    rw [common_v6_iff]
    cases zone with
    | some z =>
      constructor
      · rintro ⟨hzone, _⟩
        cases hzone
      · rintro ⟨hgo, _⟩
        cases hgo
    | none =>
      change _ ↔ isPrivateIP a = true ∧ _
      cases hmapped : isV4Mapped a with
      | true =>
        obtain ⟨hone, hlink, hunique⟩ := mapped_disjoint hmapped
        have hjava : javaRefuses (.v6 a none) = true ↔ CommonV4 (embedded a) := by
          rw [javaRefuses_mapped hmapped]
          exact java_v4_iff
        rw [go_v4_iff (if_pos hmapped), hjava]
        constructor
        · rintro ⟨_, (h | h | h) | ⟨_, h⟩⟩
          · exact (hone h).elim
          · exact (Bool.eq_false_iff.mp hlink h).elim
          · exact (Bool.eq_false_iff.mp hunique h).elim
          · exact ⟨.inl h, h⟩
        · rintro ⟨_, h⟩
          exact ⟨rfl, .inr ⟨rfl, h⟩⟩
      | false =>
        rw [go_v6_iff hmapped, java_v6_iff hmapped]
        constructor
        · rintro ⟨_, (h | h | h) | ⟨h, _⟩⟩
          · exact ⟨.inl h, .inl h⟩
          · exact ⟨.inr (.inr (.inl h)), .inr (.inr (.inl h))⟩
          · exact ⟨.inr (.inl h), .inr (.inr (.inr h))⟩
          · cases h
        · rintro ⟨hgo, h | h | h | h⟩
          · exact ⟨rfl, .inl (.inl h)⟩
          · -- site-local: Go refuses it only as one of the others
            rcases hgo with hgo | hgo | hgo | ⟨hgo, _⟩
            · exact ⟨rfl, .inl (.inl hgo)⟩
            · exact ⟨rfl, .inl (.inr (.inr hgo))⟩
            · exact ⟨rfl, .inl (.inr (.inl hgo))⟩
            · exact (siteLocal_multicast h hgo).elim
          · exact ⟨rfl, .inl (.inr (.inl h))⟩
          · exact ⟨rfl, .inl (.inr (.inr h))⟩

end Pineapple.Ssrf
