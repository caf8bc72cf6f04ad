import Labs.Jos.ChksumSpec

/-!
# Checksums in headers

Where the stack stores checksums and checks them: in IP headers (`net/lwip/core/ipv4/ip.c`), in
UDP datagrams (`net/lwip/core/udp.c`), and in ICMP echo replies, which keep the checksum of the
request up to a correction (`net/lwip/core/ipv4/icmp.c`).
-/

namespace Labs.Jos.Chksum

open OnesSum

/-! ## Halves in a text -/

/-- The two bytes of a half in memory. -/
def halfBytes (v : Half) : List Byte := [v.setWidth 8, (v >>> 8).setWidth 8]

/-- The half at an offset. -/
def getHalf (data : List Byte) (off : Nat) : Half :=
  match data.drop off with
  | x :: y :: _ => pair x y
  | _ => 0

/-- Store a half at an offset. -/
def setHalf (data : List Byte) (off : Nat) (v : Half) : List Byte :=
  data.take off ++ halfBytes v ++ data.drop (off + 2)

/-! ## The stack -/

def IP_HLEN : Nat := 20

/-- The end of the header that `ip_output_if` makes: `_chksum` is set to zero and then to the
checksum. -/
def ipChksumSet (iphdr : List Byte) : List Byte :=
  let iphdr := setHalf iphdr 10 0
  setHalf iphdr 10 (inetChksum (iphdr.take IP_HLEN))

def UDP_HLEN : Nat := 8

def IP_PROTO_UDP : Byte := 17

def UDP_FLAGS_NOCHKSUM : Byte := 0x01

/-- The header of `udp_sendto_if`, before the checksum is known. -/
def udpHeader (src dest len : Half) : List Byte :=
  halfBytes (htons src) ++ halfBytes (htons dest) ++ halfBytes (htons len) ++ halfBytes 0

/-- The header in front of the data: in the first buffer when that has room, otherwise in a buffer
of its own. -/
def addHeader (room : Bool) (hdr : List Byte) (p : List (List Byte)) : List (List Byte) :=
  match room, p with
  | true, first :: rest => (hdr ++ first) :: rest
  | _, p => hdr :: p

/-- Store in the first buffer. -/
def setFirst (q : List (List Byte)) (off : Nat) (v : Half) : List (List Byte) :=
  match q with
  | [] => []
  | first :: rest => setHalf first off v :: rest

/-- The datagram that `udp_sendto_if` sends for a connection with the given flags. -/
def udpSend (flags : Byte) (room : Bool) (p : List (List Byte)) (srcIp destIp : Word)
    (src dest : Half) : List (List Byte) :=
  let totLen := BitVec.ofNat 16 (UDP_HLEN + p.flatten.length)
  let q := addHeader room (udpHeader src dest totLen) p
  if flags &&& UDP_FLAGS_NOCHKSUM = 0 then
    let chksum := inetChksumPseudo q srcIp destIp IP_PROTO_UDP totLen
    setFirst q 6 (if chksum = 0 then 0xffff else chksum)
  else q

/-- The check of `udp_input`. -/
def udpCheck (p : List (List Byte)) (srcIp destIp : Word) : Bool :=
  let chksum := match p with
    | [] => 0
    | first :: _ => getHalf first 6
  let totLen := BitVec.ofNat 16 p.flatten.length
  chksum = 0 ∨ inetChksumPseudo p srcIp destIp IP_PROTO_UDP totLen = 0

def ICMP_ER : Byte := 0

def ICMP_ECHO : Byte := 8

/-- The size of `struct icmp_echo_hdr`. -/
def ICMP_ECHO_HDR : Nat := 8

/-- The correction of the checksum when the type changes. -/
def adjustChksum (chksum : Half) : Half :=
  if chksum ≥ htons (0xffff - (ICMP_ECHO.setWidth 16 <<< 8)) then
    chksum + (htons (ICMP_ECHO.setWidth 16 <<< 8) + 1)
  else chksum + htons (ICMP_ECHO.setWidth 16 <<< 8)

/-- The echo of `icmp_input`: the message that is returned, if there is one. -/
def icmpEcho : List (List Byte) → Option (List (List Byte))
  | [] => none
  | first :: rest =>
      if (first :: rest).flatten.length < 4 then none
      else if first[0]? ≠ some ICMP_ECHO then none
      else if (first :: rest).flatten.length < ICMP_ECHO_HDR then none
      else if inetChksumPbuf (first :: rest) ≠ 0 then none
      else
        let iecho := first.set 0 ICMP_ER
        some (setHalf iecho 2 (adjustChksum (getHalf iecho 2)) :: rest)

/-! ## Storing a half -/

theorem total_half_bytes (v : Half) (rest : List Byte) :
    total (halfBytes v ++ rest) = v.toNat + total rest := by
  have hlow : (v.setWidth 8).toNat = v.toNat % 256 := by
    rw [BitVec.toNat_setWidth]
  have hhigh : ((v >>> 8).setWidth 8).toNat = v.toNat / 256 := by
    have := v.isLt
    rw [BitVec.toNat_setWidth, BitVec.toNat_ushiftRight, Nat.shiftRight_eq_div_pow]
    omega
  have hsplit := Nat.mod_add_div v.toNat 256
  rw [halfBytes, total, List.cons_append, List.cons_append, List.nil_append, nats_cons, nats_cons,
    weigh_cons, weigh_cons, hlow, hhigh, Nat.one_mul, ← Nat.add_assoc, hsplit]
  rfl

theorem half_bytes_pair (x y : Byte) : halfBytes (pair x y) = [x, y] := by
  have hval := pair_to_nat x y
  have hx := x.isLt
  have hy := y.isLt
  unfold halfBytes
  congr 1
  · refine BitVec.eq_of_toNat_eq ?_
    rw [BitVec.toNat_setWidth, hval]
    omega
  · congr 1
    refine BitVec.eq_of_toNat_eq ?_
    rw [BitVec.toNat_setWidth, BitVec.toNat_ushiftRight, Nat.shiftRight_eq_div_pow, hval]
    omega

theorem drop_half_at {data : List Byte} {off : Nat} (hoff : off + 2 ≤ data.length) :
    data.drop off = halfBytes (getHalf data off) ++ data.drop (off + 2) := by
  have hlen : (data.drop off).length = data.length - off := List.length_drop
  match hdrop : data.drop off with
  | [] | [_] =>
      rw [hdrop] at hlen
      simp at hlen
      omega
  | x :: y :: rest =>
      have hrest : data.drop (off + 2) = rest := by
        rw [← List.drop_drop, hdrop]
        rfl
      have hget : getHalf data off = pair x y := by
        rw [getHalf, hdrop]
      rw [hget, half_bytes_pair, hrest]
      rfl

theorem set_half_length {data : List Byte} {off : Nat} (hoff : off + 2 ≤ data.length) (v : Half) :
    (setHalf data off v).length = data.length := by
  rw [setHalf, List.length_append, List.length_append, List.length_take, List.length_drop]
  change _ + 2 + _ = _
  omega

/-- What is stored replaces what was there in the sum. -/
theorem total_set_half {data : List Byte} {off : Nat} (heven : off % 2 = 0)
    (hoff : off + 2 ≤ data.length) (v : Half) :
    total (setHalf data off v) + (getHalf data off).toNat = total data + v.toNat := by
  have htake : (data.take off).length = off := by
    rw [List.length_take]
    omega
  have hpart : ∀ u : Half, total (data.take off ++ halfBytes u ++ data.drop (off + 2)) =
      total (data.take off) + (u.toNat + total (data.drop (off + 2))) := by
    intro u
    rw [List.append_assoc, total_append_even (by rw [htake]; exact heven), total_half_bytes]
  have hold := hpart (getHalf data off)
  rw [List.append_assoc, ← drop_half_at hoff, List.take_append_drop] at hold
  rw [setHalf, hpart, hold]
  omega

theorem get_half_cons (v : Half) (rest : List Byte) {data : List Byte} {off : Nat}
    (hdrop : data.drop off = halfBytes v ++ rest) : getHalf data off = v := by
  have hlt := v.isLt
  rw [getHalf, hdrop]
  change pair (v.setWidth 8) ((v >>> 8).setWidth 8) = v
  refine BitVec.eq_of_toNat_eq ?_
  rw [pair_to_nat, BitVec.toNat_setWidth, BitVec.toNat_setWidth, BitVec.toNat_ushiftRight,
    Nat.shiftRight_eq_div_pow]
  omega

theorem get_set_half {data : List Byte} {off : Nat} (hoff : off ≤ data.length) (v : Half) :
    getHalf (setHalf data off v) off = v := by
  have htake : (data.take off).length = off := by
    rw [List.length_take]
    omega
  refine get_half_cons v (data.drop (off + 2)) ?_
  rw [setHalf, List.append_assoc, List.drop_append_of_le_length (by omega),
    List.drop_of_length_le (by omega), List.nil_append]

theorem get_half_append {data : List Byte} {off : Nat} (hoff : off + 2 ≤ data.length)
    (rest : List Byte) : getHalf (data ++ rest) off = getHalf data off := by
  refine get_half_cons _ (data.drop (off + 2) ++ rest) ?_
  rw [List.drop_append_of_le_length (by omega), drop_half_at hoff, List.append_assoc]

theorem set_half_append {data : List Byte} {off : Nat} (hoff : off + 2 ≤ data.length) (v : Half)
    (rest : List Byte) : setHalf (data ++ rest) off v = setHalf data off v ++ rest := by
  rw [setHalf, setHalf, List.take_append_of_le_length (by omega),
    List.drop_append_of_le_length hoff, List.append_assoc _ _ rest]

/-- What changes in the sum when one byte changes. -/
theorem total_set {data : List Byte} {i : Nat} (hi : i < data.length) (b : Byte) :
    ∃ w, 0 < w ∧ w ≤ 256 ∧
      total (data.set i b) + w * data[i].toNat = total data + w * b.toNat := by
  have htake : (data.take i).length = i := by
    rw [List.length_take]
    omega
  have hold : data = data.take i ++ data[i] :: data.drop (i + 1) := by
    rw [List.getElem_cons_drop, List.take_append_drop]
  have hpart : ∀ x : Byte, total (data.take i ++ x :: data.drop (i + 1)) =
      total (data.take i) + if i % 2 = 0 then x.toNat + weigh 256 1 (nats (data.drop (i + 1)))
        else 256 * x.toNat + weigh 1 256 (nats (data.drop (i + 1))) := by
    intro x
    rw [total, nats_append, weigh_append, nats_length, htake, nats_cons, weigh_cons, weigh_cons,
      Nat.one_mul]
    rfl
  have hbefore := hpart data[i]
  rw [← hold] at hbefore
  rw [List.set_eq_take_append_cons_drop, if_pos hi, hpart b, hbefore]
  rcases Nat.mod_two_eq_zero_or_one i with heven | hodd
  · refine ⟨1, by omega, by omega, ?_⟩
    rw [if_pos heven, if_pos heven]
    omega
  · refine ⟨256, by omega, by omega, ?_⟩
    rw [if_neg (by omega), if_neg (by omega)]
    omega

/-- Two texts that differ in one byte at most are not both multiples of 65535, whatever is added to
both. -/
theorem eq_of_total_dvd {data : List Byte} {i : Nat} {b : Byte} {s : Nat}
    (hold : 65535 ∣ total data + s) (hnew : 65535 ∣ total (data.set i b) + s) :
    data.set i b = data := by
  by_cases hi : i < data.length
  · obtain ⟨w, hpos, hw, hsum⟩ := total_set hi b
    have hx := data[i].isLt
    have hb := b.isLt
    have hlow : w * data[i].toNat ≤ 256 * 255 := Nat.mul_le_mul hw (by omega)
    have hhigh : w * b.toNat ≤ 256 * 255 := Nat.mul_le_mul hw (by omega)
    have heq : w * data[i].toNat = w * b.toNat := by omega
    have hbyte : b = data[i] := BitVec.eq_of_toNat_eq (Nat.eq_of_mul_eq_mul_left hpos heq).symm
    rw [hbyte, List.set_getElem_self]
  · exact List.set_eq_of_length_le (by omega)

theorem eq_zero_iff_dvd {v : Half} {n : Nat} (hv : v.toNat = 65535 - norm 65535 n) :
    v = 0 ↔ n ≠ 0 ∧ 65535 ∣ n := by
  have hle := norm_le (m := 65535) (by omega) n
  have hzero : (0 : Half).toNat = 0 := rfl
  rw [← norm_eq_top (by omega), ← BitVec.toNat_inj, hv, hzero]
  omega

/-! ## IP headers -/

theorem take_set_half {data : List Byte} {off len : Nat} (hoff : off + 2 ≤ len)
    (hlen : len ≤ data.length) (v : Half) :
    (setHalf data off v).take len = setHalf (data.take len) off v := by
  have hsplit : setHalf data off v = setHalf (data.take len) off v ++ data.drop len := by
    rw [← set_half_append (by rw [List.length_take]; omega), List.take_append_drop]
  have htake : (data.take len).length = len := by
    rw [List.length_take]
    omega
  rw [hsplit, List.take_append_of_le_length (by rw [set_half_length] <;> omega),
    List.take_of_length_le (by rw [set_half_length] <;> omega)]

/-- The header that is sent passes the check of the receiver. -/
theorem ip_chksum_set_checks {iphdr : List Byte} (hlen : IP_HLEN ≤ iphdr.length) :
    inetChksum ((ipChksumSet iphdr).take IP_HLEN) = 0 := by
  unfold IP_HLEN at hlen
  obtain ⟨hdr, hhdr⟩ : ∃ hdr, hdr = (setHalf iphdr 10 0).take IP_HLEN := ⟨_, rfl⟩
  have hset : (setHalf iphdr 10 0).length = iphdr.length := set_half_length (by omega) 0
  have hhlen : hdr.length = 20 := by
    rw [hhdr, List.length_take, hset]
    exact Nat.min_eq_left hlen
  have hfield : getHalf hdr 10 = 0 := by
    rw [hhdr, IP_HLEN, take_set_half (by omega) hlen]
    refine get_set_half ?_ 0
    rw [List.length_take]
    omega
  have hsent : (ipChksumSet iphdr).take IP_HLEN = setHalf hdr 10 (inetChksum hdr) := by
    unfold ipChksumSet
    dsimp only
    rw [IP_HLEN] at hhdr ⊢
    rw [take_set_half (by omega) (by rw [hset]; exact hlen), ← hhdr]
  have hgen := @inet_chksum_eq hdr (by omega)
  have hsum := @total_set_half hdr 10 rfl (by omega) (inetChksum hdr)
  have hzero : (0 : Half).toNat = 0 := rfl
  rw [hfield, hzero, hgen, Nat.add_zero] at hsum
  have hnorm := norm_add_complement (m := 65535) (by omega) (total hdr)
  have hcheck := @inet_chksum_eq (setHalf hdr 10 (inetChksum hdr))
    (by rw [set_half_length] <;> omega)
  rw [hsent, ← BitVec.toNat_inj, hcheck, hsum, hnorm]
  rfl

/-! ## UDP -/

theorem flatten_add_header (room : Bool) (hdr : List Byte) (p : List (List Byte)) :
    (addHeader room hdr p).flatten = hdr ++ p.flatten := by
  cases room with
  | false => rfl
  | true =>
      cases p with
      | nil => rfl
      | cons first rest => exact List.append_assoc hdr first rest.flatten

theorem flatten_set_first {q : List (List Byte)} {first : List Byte} {rest : List (List Byte)}
    (hq : q = first :: rest) {off : Nat} (hoff : off + 2 ≤ first.length) (v : Half) :
    (setFirst q off v).flatten = setHalf q.flatten off v := by
  rw [hq, List.flatten_cons, set_half_append hoff]
  rfl

theorem add_header_first (room : Bool) (hdr : List Byte) (p : List (List Byte)) :
    ∃ more rest, addHeader room hdr p = (hdr ++ more) :: rest := by
  cases room with
  | false => exact ⟨[], p, by rw [List.append_nil]; rfl⟩
  | true =>
      cases p with
      | nil => exact ⟨[], [], by rw [List.append_nil]; rfl⟩
      | cons first rest => exact ⟨first, rest, rfl⟩

theorem udp_header_length (src dest len : Half) : (udpHeader src dest len).length = 8 := rfl

/-- What the datagram holds: its checksum is not zero, and its sum with that of the pseudo header is
a multiple of 65535. -/
theorem udp_send_sum {flags : Byte} (hflags : flags &&& UDP_FLAGS_NOCHKSUM = 0) (room : Bool)
    {p : List (List Byte)} (srcIp destIp : Word) (src dest : Half)
    (hlen : UDP_HLEN + p.flatten.length < 65536) :
    (udpSend flags room p srcIp destIp src dest).flatten.length = UDP_HLEN + p.flatten.length ∧
      65535 ∣ total (udpSend flags room p srcIp destIp src dest).flatten +
        pseudoSum srcIp destIp IP_PROTO_UDP (BitVec.ofNat 16 (UDP_HLEN + p.flatten.length)) ∧
      getHalf (udpSend flags room p srcIp destIp src dest).flatten 6 ≠ 0 := by
  obtain ⟨len, hlenVar⟩ : ∃ len, len = BitVec.ofNat 16 (UDP_HLEN + p.flatten.length) := ⟨_, rfl⟩
  obtain ⟨hdr, hhdr⟩ : ∃ hdr, hdr = udpHeader src dest len := ⟨_, rfl⟩
  obtain ⟨chksum, hchksum⟩ : ∃ chksum, chksum =
      inetChksumPseudo (addHeader room hdr p) srcIp destIp IP_PROTO_UDP len := ⟨_, rfl⟩
  obtain ⟨v, hv⟩ : ∃ v : Half, v = if chksum = 0 then 0xffff else chksum := ⟨_, rfl⟩
  have hcode : udpSend flags room p srcIp destIp src dest =
      setFirst (addHeader room hdr p) 6 v := by
    rw [hv, hchksum, hhdr, hlenVar, udpSend, if_pos hflags]
  have hhlen : hdr.length = 8 := by
    rw [hhdr]
    exact udp_header_length src dest len
  have htext := flatten_add_header room hdr p
  have htlen : (hdr ++ p.flatten).length = UDP_HLEN + p.flatten.length := by
    rw [List.length_append, hhlen]
    rfl
  obtain ⟨more, rest, hfirst⟩ := add_header_first room hdr p
  have hsent : (udpSend flags room p srcIp destIp src dest).flatten =
      setHalf (hdr ++ p.flatten) 6 v := by
    rw [hcode, flatten_set_first hfirst (by rw [List.length_append]; omega), htext]
  have hfield : getHalf (hdr ++ p.flatten) 6 = 0 := by
    rw [get_half_append (by omega), hhdr]
    exact get_half_cons 0 [] rfl
  have hsum := @total_set_half (hdr ++ p.flatten) 6 rfl
    (by rw [htlen]; unfold UDP_HLEN; omega) v
  have hzero : (0 : Half).toNat = 0 := rfl
  rw [hfield, hzero, Nat.add_zero] at hsum
  have hparts : ∀ q ∈ addHeader room hdr p, q.length < 65536 := by
    intro q hq
    have hle := (List.sublist_flatten_of_mem hq).length_le
    rw [htext, htlen] at hle
    omega
  have hgen := inet_chksum_pseudo_eq hparts srcIp destIp IP_PROTO_UDP len
  rw [← hchksum, htext] at hgen
  rw [hsent, ← hlenVar, hsum]
  refine ⟨?_, ?_, ?_⟩
  · rw [set_half_length (by rw [htlen]; unfold UDP_HLEN; omega), htlen]
  · by_cases hnone : chksum = 0
    · obtain ⟨-, hdvd⟩ := (eq_zero_iff_dvd hgen).1 hnone
      have hval : v.toNat = 65535 := by
        rw [hv, if_pos hnone]
        rfl
      rw [hval]
      omega
    · have hval : v.toNat = chksum.toNat := by
        rw [hv, if_neg hnone]
      have hnorm := norm_add_complement (m := 65535) (by omega)
        (total (hdr ++ p.flatten) + pseudoSum srcIp destIp IP_PROTO_UDP len)
      obtain ⟨-, hdvd⟩ := (norm_eq_top (by omega) _).1 hnorm
      rw [← hgen] at hdvd
      rw [hval]
      omega
  · rw [get_set_half (by rw [htlen]; unfold UDP_HLEN; omega), hv]
    split
    case isTrue hnone => decide
    case isFalse hsome => exact hsome

/-- What a datagram without a checksum holds. -/
theorem udp_send_plain {flags : Byte} (hflags : flags &&& UDP_FLAGS_NOCHKSUM ≠ 0) (room : Bool)
    (p : List (List Byte)) (srcIp destIp : Word) (src dest : Half) :
    getHalf (udpSend flags room p srcIp destIp src dest).flatten 6 = 0 := by
  rw [udpSend, if_neg hflags, flatten_add_header, get_half_append (by rw [udp_header_length])]
  exact get_half_cons 0 [] rfl

theorem get_half_set {data : List Byte} {off i : Nat} (hlow : i ≠ off) (hhigh : i ≠ off + 1)
    (b : Byte) : getHalf (data.set i b) off = getHalf data off := by
  have hget : ∀ j, i ≠ off + j → ((data.set i b).drop off)[j]? = (data.drop off)[j]? := by
    intro j hj
    rw [List.getElem?_drop, List.getElem?_drop, List.getElem?_set_ne hj]
  have hfst := hget 0 hlow
  have hsnd := hget 1 hhigh
  unfold getHalf
  generalize (data.set i b).drop off = new at hfst hsnd
  generalize data.drop off = old at hfst hsnd
  rcases new with _ | ⟨x, _ | ⟨y, new⟩⟩ <;> rcases old with _ | ⟨u, _ | ⟨v, old⟩⟩ <;> simp_all

/-- A datagram with a checksum that arrives with one byte changed at most, cut into other buffers,
is accepted exactly if nothing is changed or the changed one says that it has no checksum. -/
theorem udp_check_summed {flags : Byte} (hflags : flags &&& UDP_FLAGS_NOCHKSUM = 0) {room : Bool}
    {p : List (List Byte)} {srcIp destIp : Word} {src dest : Half} {i : Nat} {b : Byte}
    {first : List Byte} {rest : List (List Byte)}
    (hlen : UDP_HLEN + p.flatten.length < 65536) (hfirst : UDP_HLEN ≤ first.length)
    (hcut : first ++ rest.flatten = (udpSend flags room p srcIp destIp src dest).flatten.set i b) :
    udpCheck (first :: rest) srcIp destIp = true ↔
      first ++ rest.flatten = (udpSend flags room p srcIp destIp src dest).flatten ∨
        getHalf (first ++ rest.flatten) 6 = 0 := by
  have hread : getHalf (first ++ rest.flatten) 6 = getHalf first 6 :=
    get_half_append (by unfold UDP_HLEN at hfirst; omega) rest.flatten
  obtain ⟨hsize, hsum, hfield⟩ := udp_send_sum hflags room srcIp destIp src dest hlen
  generalize (udpSend flags room p srcIp destIp src dest).flatten = sent at hcut hsize hsum hfield ⊢
  have hflat : (first :: rest).flatten = first ++ rest.flatten := List.flatten_cons
  have hrlen : (first :: rest).flatten.length = UDP_HLEN + p.flatten.length := by
    rw [hflat, hcut, List.length_set, hsize]
  have hparts : ∀ q ∈ first :: rest, q.length < 65536 := by
    intro q hq
    have hle := (List.sublist_flatten_of_mem hq).length_le
    omega
  have hgen := inet_chksum_pseudo_eq hparts srcIp destIp IP_PROTO_UDP
    (BitVec.ofNat 16 (UDP_HLEN + p.flatten.length))
  have hpseudo : 0 < pseudoSum srcIp destIp IP_PROTO_UDP
      (BitVec.ofNat 16 (UDP_HLEN + p.flatten.length)) := by
    have hproto : IP_PROTO_UDP.toNat = 17 := rfl
    unfold pseudoSum
    omega
  have hiff := eq_zero_iff_dvd hgen
  have hcheck : udpCheck (first :: rest) srcIp destIp = true ↔
      getHalf first 6 = 0 ∨ inetChksumPseudo (first :: rest) srcIp destIp IP_PROTO_UDP
        (BitVec.ofNat 16 (UDP_HLEN + p.flatten.length)) = 0 := by
    unfold udpCheck
    dsimp only
    rw [hrlen, decide_eq_true_iff]
  rw [hcheck, hiff, hflat, hread, or_comm]
  refine or_congr_left ?_
  constructor
  · rintro ⟨-, hdvd⟩
    rw [hcut] at hdvd ⊢
    exact eq_of_total_dvd hsum hdvd
  · intro hsame
    rw [hsame]
    exact ⟨by omega, hsum⟩

/-- A datagram arrives with one byte changed at most, cut into other buffers. If its connection does
not forbid checksums, then it is accepted exactly if nothing is changed or the changed one says that
it has no checksum. Otherwise it is accepted whichever byte but those of the checksum is changed. -/
theorem udp_send_check (flags : Byte) (room : Bool) (p : List (List Byte)) (srcIp destIp : Word)
    (src dest : Half) (i : Nat) (b : Byte) (first : List Byte) (rest : List (List Byte))
    (hlen : UDP_HLEN + p.flatten.length < 65536) (hfirst : UDP_HLEN ≤ first.length)
    (hcut : first ++ rest.flatten = (udpSend flags room p srcIp destIp src dest).flatten.set i b) :
    (flags &&& UDP_FLAGS_NOCHKSUM = 0 →
      (udpCheck (first :: rest) srcIp destIp = true ↔
        first ++ rest.flatten = (udpSend flags room p srcIp destIp src dest).flatten ∨
          getHalf (first ++ rest.flatten) 6 = 0)) ∧
      (flags &&& UDP_FLAGS_NOCHKSUM ≠ 0 → i ≠ 6 → i ≠ 7 →
        udpCheck (first :: rest) srcIp destIp = true) := by
  refine ⟨fun hflags => udp_check_summed hflags hlen hfirst hcut, fun hflags hlow hhigh => ?_⟩
  have hread : getHalf (first ++ rest.flatten) 6 = getHalf first 6 :=
    get_half_append (by unfold UDP_HLEN at hfirst; omega) rest.flatten
  have hfield : getHalf first 6 = 0 := by
    rw [← hread, hcut, get_half_set hlow hhigh, udp_send_plain hflags]
  unfold udpCheck
  dsimp only
  rw [decide_eq_true_iff]
  exact .inl hfield

/-- The datagram of one byte of data is accepted as it was sent, and refused when that byte has
changed. Without a checksum it is accepted with the change. -/
theorem udp_send_check_one_byte :
    udpCheck [[0x30, 0x39, 0x00, 0x50, 0x00, 0x09, 0x73, 0x50], [0x48]] 0x0100000a 0x0200000a =
      true ∧
    ¬ udpCheck [[0x30, 0x39, 0x00, 0x50, 0x00, 0x09, 0x73, 0x50, 0x49]] 0x0100000a 0x0200000a =
      true ∧
    udpCheck [[0x30, 0x39, 0x00, 0x50, 0x00, 0x09, 0x00, 0x00, 0x49]] 0x0100000a 0x0200000a =
      true := by
  have hwhole := (udp_send_check 0 false [[0x48]] 0x0100000a 0x0200000a 12345 80 8 0x48
    [0x30, 0x39, 0x00, 0x50, 0x00, 0x09, 0x73, 0x50] [[0x48]] (by decide) (by decide)
    (by decide)).1 (by decide)
  have hchanged := (udp_send_check 0 false [[0x48]] 0x0100000a 0x0200000a 12345 80 8 0x49
    [0x30, 0x39, 0x00, 0x50, 0x00, 0x09, 0x73, 0x50, 0x49] [] (by decide) (by decide)
    (by decide)).1 (by decide)
  have hplain := (udp_send_check UDP_FLAGS_NOCHKSUM false [[0x48]] 0x0100000a 0x0200000a 12345 80 8
    0x49 [0x30, 0x39, 0x00, 0x50, 0x00, 0x09, 0x00, 0x00, 0x49] [] (by decide) (by decide)
    (by decide)).2 (by decide) (by decide) (by decide)
  refine ⟨hwhole.2 (.inl (by decide)), fun haccept => ?_, hplain⟩
  rcases hchanged.1 haccept with hsame | hzero
  · exact absurd hsame (by decide)
  · exact absurd hzero (by decide)

/-! ## ICMP -/

theorem adjust_chksum_to_nat (c : Half) :
    (adjustChksum c).toNat = c.toNat + 8 ∨ (adjustChksum c).toNat + 65535 = c.toNat + 8 := by
  have hlt := c.isLt
  have hbound : (htons (0xffff - (ICMP_ECHO.setWidth 16 <<< 8))).toNat = 65527 := by decide
  have hecho : (htons (ICMP_ECHO.setWidth 16 <<< 8)).toNat = 8 := by decide
  have hone : (1 : Half).toNat = 1 := rfl
  unfold adjustChksum
  split
  case isTrue hge =>
    rw [ge_iff_le, BitVec.le_def, hbound] at hge
    right
    rw [BitVec.toNat_add, BitVec.toNat_add, hecho, hone]
    omega
  case isFalse hlow =>
    rw [ge_iff_le, BitVec.le_def, hbound] at hlow
    left
    rw [BitVec.toNat_add, hecho]
    omega

theorem total_eq_zero (data : List Byte) : total data = 0 ↔ ∀ b ∈ data, b = 0 := by
  rw [total, weigh_eq_zero (by omega) (by omega), nats]
  constructor
  · intro hall b hb
    exact BitVec.eq_of_toNat_eq (hall b.toNat (List.mem_map_of_mem hb))
  · intro hall x hx
    obtain ⟨b, hb, rfl⟩ := List.mem_map.1 hx
    rw [hall b hb]
    rfl

/-- When a request is answered, and with what. -/
theorem icmp_echo_some {first : List Byte} {rest r : List (List Byte)}
    (hlen : (first :: rest).flatten.length < 65536) (hecho : icmpEcho (first :: rest) = some r) :
    65535 ∣ total (first ++ rest.flatten) ∧ first[0]? = some ICMP_ECHO ∧
      r = setHalf (first.set 0 ICMP_ER) 2 (adjustChksum (getHalf (first.set 0 ICMP_ER) 2)) ::
        rest := by
  rw [icmpEcho] at hecho
  by_cases hshort : (first :: rest).flatten.length < 4
  · rw [if_pos hshort] at hecho
    cases hecho
  by_cases htype : first[0]? ≠ some ICMP_ECHO
  · rw [if_neg hshort, if_pos htype] at hecho
    cases hecho
  by_cases hhdr : (first :: rest).flatten.length < ICMP_ECHO_HDR
  · rw [if_neg hshort, if_neg htype, if_pos hhdr] at hecho
    cases hecho
  by_cases hchk : inetChksumPbuf (first :: rest) ≠ 0
  · rw [if_neg hshort, if_neg htype, if_neg hhdr, if_pos hchk] at hecho
    cases hecho
  rw [if_neg hshort, if_neg htype, if_neg hhdr, if_neg hchk] at hecho
  have hparts : ∀ q ∈ first :: rest, q.length < 65536 := by
    intro q hq
    have hle := (List.sublist_flatten_of_mem hq).length_le
    omega
  obtain ⟨-, hdvd⟩ := (eq_zero_iff_dvd (inet_chksum_pbuf_eq hparts)).1 (not_not.1 hchk)
  exact ⟨hdvd, not_not.1 htype, (Option.some.inj hecho).symm⟩

/-- An echo reply carries the data of the request, and its checksum is right unless it holds nothing
but zeros. -/
theorem icmp_echo_checks (first : List Byte) (rest r : List (List Byte))
    (hlen : (first :: rest).flatten.length < 65536) (hfirst : ICMP_ECHO_HDR ≤ first.length)
    (hecho : icmpEcho (first :: rest) = some r) :
    r.flatten.drop 4 = (first :: rest).flatten.drop 4 ∧
      (inetChksumPbuf r = 0 ↔ ∃ b ∈ r.flatten, b ≠ 0) := by
  unfold ICMP_ECHO_HDR at hfirst
  obtain ⟨hdvd, htype, hr⟩ := icmp_echo_some hlen hecho
  obtain ⟨text, hflat⟩ : ∃ text, text = first ++ rest.flatten := ⟨_, rfl⟩
  rw [List.flatten_cons, ← hflat] at hlen ⊢
  rw [← hflat] at hdvd
  match first with
  | [] => simp at hfirst
  | type :: tail =>
      have htypeEq : type = ICMP_ECHO := Option.some.inj htype
      rw [List.length_cons] at hfirst
      obtain ⟨er, her⟩ : ∃ er : List Byte, er = ICMP_ER :: tail := ⟨_, rfl⟩
      have hset : (type :: tail).set 0 ICMP_ER = er := her.symm
      rw [hset] at hr
      have herLen : er.length = tail.length + 1 := by rw [her, List.length_cons]
      have hreply : r.flatten = setHalf (er ++ rest.flatten) 2 (adjustChksum (getHalf er 2)) := by
        rw [hr, List.flatten_cons, set_half_append (by omega)]
      have hroom : 2 + 2 ≤ (er ++ rest.flatten).length := by
        rw [List.length_append]
        omega
      have hfield := get_half_append (by omega : 2 + 2 ≤ er.length) rest.flatten
      have hstore := total_set_half (by omega) hroom (adjustChksum (getHalf er 2))
      rw [hfield, ← hreply] at hstore
      have hzero : total (er ++ rest.flatten) + 8 = total text := by
        have htypeNat : type.toNat = 8 := by
          rw [htypeEq]
          rfl
        have herNat : ICMP_ER.toNat = 0 := rfl
        rw [hflat, her, List.cons_append, List.cons_append, total, total, nats_cons, nats_cons,
          weigh_cons, weigh_cons, htypeNat, herNat]
        omega
      have hrlen : r.flatten.length = text.length := by
        rw [hreply, set_half_length hroom, hflat, List.length_append, List.length_append, herLen,
          List.length_cons]
      have hparts : ∀ q ∈ r, q.length < 65536 := by
        intro q hq
        have hle := (List.sublist_flatten_of_mem hq).length_le
        omega
      refine ⟨?_, ?_⟩
      · have hlow : (List.take 2 (er ++ rest.flatten) ++ halfBytes
            (adjustChksum (getHalf er 2))).length = 4 := by
          rw [List.length_append, List.length_take]
          change min 2 _ + 2 = 4
          omega
        rw [hreply, setHalf, List.drop_append_of_le_length (by omega),
          List.drop_of_length_le (by omega), List.nil_append, hflat, her]
        rfl
      · rw [eq_zero_iff_dvd (inet_chksum_pbuf_eq hparts), Ne, total_eq_zero, not_forall]
        have hall : 65535 ∣ total r.flatten := by
          rcases adjust_chksum_to_nat (getHalf er 2) with hadj | hadj <;> omega
        constructor
        · rintro ⟨⟨b, hb⟩, -⟩
          exact ⟨b, Classical.not_imp.1 hb⟩
        · rintro ⟨b, hb⟩
          exact ⟨⟨b, Classical.not_imp.2 hb⟩, hall⟩

/-- An echo request and its reply. -/
def pingText (type chk : Byte) : List Byte := [type, 0x00, chk, 0xff, 0x00, 0x00, 0x01, 0x00]

theorem icmp_echo_checks_ping :
    [pingText 0 0xfe].flatten.drop 4 = [pingText 8 0xf6].flatten.drop 4 ∧
      (inetChksumPbuf [pingText 0 0xfe] = 0 ↔ ∃ b ∈ [pingText 0 0xfe].flatten, b ≠ 0) :=
  icmp_echo_checks (pingText 8 0xf6) [] [pingText 0 0xfe] (by decide) (by decide) (by decide)

end Labs.Jos.Chksum
