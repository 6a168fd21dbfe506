import AevOS.TcpStream

/-! The receive path of the network stack (`lwip_port.c`). Reading behind the frame's end makes a handler
answer `none`; frames of other types than IPv4 are left out. -/

namespace AevOS.Net
open Wire
open Tcp

section Reads

variable {α β : Type}

def load (frame : Bytes) (off n : Nat) (value : α) : Option α :=
  if off+n ≤ frame.length then some value else none

theorem load_bind_isSome (frame : Bytes) (off n : Nat) (value : α) (f : α → Option β) :
    ((load frame off n value).bind f).isSome = true ↔ off+n ≤ frame.length ∧ (f value).isSome = true := by
  unfold load
  split <;> simp [*]

end Reads

def be16 (frame : Bytes) (off : Nat) : UInt16 :=
  UInt16.ofNat (leValue (slice frame off 2).reverse)

def be32 (frame : Bytes) (off : Nat) : UInt32 :=
  UInt32.ofNat (leValue (slice frame off 4).reverse)

def raw32 (frame : Bytes) (off : Nat) : UInt32 := UInt32.ofNat (leValue (slice frame off 4))
def read8 (frame : Bytes) (off : Nat) : Option UInt8 := load frame off 1 (byteAt frame off)
def read16 (frame : Bytes) (off : Nat) : Option UInt16 := load frame off 2 (be16 frame off)
def read32 (frame : Bytes) (off : Nat) : Option UInt32 := load frame off 4 (be32 frame off)
def readRaw32 (frame : Bytes) (off : Nat) : Option UInt32 := load frame off 4 (raw32 frame off)
def readBytes (frame : Bytes) (off n : Nat) : Option Bytes := load frame off n (slice frame off n)

structure Iface where
  ip : UInt32
  netmask : UInt32
  gateway : UInt32
  isUp : Bool

inductive UdpCallback where
  | none | dhcp | other
  deriving DecidableEq

structure UdpSocket where
  inUse : Bool
  localPort : UInt16
  callback : UdpCallback

structure PingWait where
  active : Bool
  targetIp : UInt32
  id : UInt16
  seq : UInt16
  replied : Bool

structure NetState where
  iface : Option Iface
  udp : List UdpSocket
  ping : PingWait
  dhcpDone : Bool
  tcp : Tcp.Stack
  /-- Echo replies handed to `ip_send`: the destination and the ICMP message. -/
  echoes : List (UInt32 × Bytes)

def scanOptions (frame : Bytes) (stop o : Nat) (iface : Iface) : Option Iface :=
  if o < stop then
    (read8 frame o).bind fun code =>
    if code = 0xFF then some iface
    else if code = 0 then scanOptions frame stop (o+1) iface
    else if stop ≤ o+1 then some iface
    else
      (read8 frame (o+1)).bind fun olen =>
      if stop < o+2+olen.toNat then some iface
      else if code = 1 ∧ 4 ≤ olen.toNat then
        (readRaw32 frame (o+2)).bind fun mask =>
        scanOptions frame stop (o+2+olen.toNat) { iface with netmask := mask }
      else if code = 3 ∧ 4 ≤ olen.toNat then
        (readRaw32 frame (o+2)).bind fun router =>
        scanOptions frame stop (o+2+olen.toNat) { iface with gateway := router }
      else scanOptions frame stop (o+2+olen.toNat) iface
  else some iface
termination_by stop-o

def dhcpRecvHandler (st : NetState) (frame : Bytes) (base n : Nat) : Option NetState :=
  if n < 552-312 then some st
  else
    (read8 frame base).bind fun op =>
    if op ≠ 2 then some st
    else
      (readRaw32 frame (base+16)).bind fun offered =>
      match st.iface with
      | none => some st
      | some iface =>
        if offered = 0 then some st
        else
          (scanOptions frame (base+240+312) (base+240)
            { iface with ip := offered, isUp := true }).bind fun iface =>
          some { st with
            iface := some iface
            dhcpDone := true
            tcp := { st.tcp with ifaceIp := some offered } }

def udpProcess (st : NetState) (frame : Bytes) (base n : Nat) : Option NetState :=
  if n < 8 then some st
  else
    (read16 frame (base+2)).bind fun dstPort =>
    (read16 frame base).bind fun _ =>
    match st.udp.find? (fun s => s.inUse && s.localPort == dstPort) with
    | none => some st
    | some s =>
      match s.callback with
      | .none => some st
      | .dhcp => dhcpRecvHandler st frame (base+8) (n-8)
      | .other => some st

def wordSum : Bytes → Nat
  | [] => 0
  | [b] => b.toNat
  | b :: c :: rest => b.toNat+256*c.toNat+wordSum rest

def foldSum (sum : Nat) : Nat :=
  if sum < 65536 then sum else foldSum (sum%65536+sum/65536)
termination_by sum
decreasing_by omega

def ipChecksum (bs : Bytes) : UInt16 := ~~~ UInt16.ofNat (foldSum (wordSum bs))

def echoReply (rest : Bytes) : Bytes :=
  [0,0] ++ leBytes 2 (ipChecksum ([0,0,0,0] ++ rest)).toNat ++ rest

def icmpProcess (st : NetState) (frame : Bytes) (base n : Nat) (srcIp : UInt32) : Option NetState :=
  if n < 8 ∨ st.iface.isNone then some st
  else
    (read8 frame base).bind fun type =>
    if type = 0 then
      if !st.ping.active then some st
      else
        (read16 frame (base+4)).bind fun rid =>
        (read16 frame (base+6)).bind fun rseq =>
        if srcIp = st.ping.targetIp ∧ rid = st.ping.id ∧ rseq = st.ping.seq then
          some { st with ping := { st.ping with replied := true } }
        else some st
    else if type = 8 then
      -- a longer request is cut to the reply buffer of 512 bytes
      (readBytes frame (base+4) (min n 512-4)).bind fun rest =>
      some { st with echoes := st.echoes ++ [(srcIp,echoReply rest)] }
    else some st

def copiedBytes (st : Tcp.Stack) (seg : Segment) : Nat :=
  match st.findSocket seg with
  | none => 0
  | some i =>
    if (st.sockets i).state = .established ∧ seg.flags &&& tcpFin = 0 then
      min seg.payload.length (st.sockets i).rx.space
    else 0

def dataOffset (b : UInt8) : Nat := ((b >>> 4)*4).toNat

def segmentAt (frame : Bytes) (base n : Nat) (srcIp : UInt32) : Segment :=
  ⟨srcIp,be16 frame base,be16 frame (base+2),be32 frame (base+4),byteAt frame (base+13),
    List.replicate (n-dataOffset (byteAt frame (base+12))) 0⟩

def tcpProcess (st : NetState) (frame : Bytes) (base n : Nat) (srcIp : UInt32) : Option NetState :=
  if n < 20 then some st
  else
    (read16 frame (base+2)).bind fun dstPort =>
    (read16 frame base).bind fun srcPort =>
    (read32 frame (base+4)).bind fun seq =>
    (read8 frame (base+13)).bind fun flags =>
    (read8 frame (base+12)).bind fun dataOff =>
    let unread := List.replicate (n-dataOffset dataOff) 0
    let seg : Segment := ⟨srcIp,srcPort,dstPort,seq,flags,unread⟩
    let copy := copiedBytes st.tcp seg
    if 0 < copy then
      (readBytes frame (base+dataOffset dataOff) copy).bind fun payload =>
      some { st with tcp := st.tcp.process { seg with payload := payload ++ unread.drop copy } }
    else some { st with tcp := st.tcp.process seg }

def ipProtoIcmp : UInt8 := 1
def ipProtoTcp : UInt8 := 6
def ipProtoUdp : UInt8 := 17
def ethTypeIpv4 : UInt16 := 0x0800
def ihl (verIhl : UInt8) : Nat := (verIhl &&& 0x0F).toNat*4

def ipReceive (st : NetState) (frame : Bytes) : Option (Option Errno × NetState) :=
  match st.iface with
  | none => some (some .einval,st)
  | some iface =>
    if frame.length < 14+20 then some (some .einval,st)
    else
      (read8 frame 14).bind fun verIhl =>
      (read16 frame 16).bind fun tlen =>
      if tlen.toNat < ihl verIhl then some (some .einval,st)
      else
        let base := 14+ihl verIhl
        let n := tlen.toNat-ihl verIhl
        (readRaw32 frame 30).bind fun dstIp =>
        if dstIp ≠ iface.ip ∧ dstIp ≠ 0xFFFFFFFF then some (none,st)
        else
          (read8 frame 23).bind fun protocol =>
          (readRaw32 frame 26).bind fun srcIp =>
          if protocol = ipProtoUdp then (udpProcess st frame base n).map (none,·)
          else if protocol = ipProtoTcp then (tcpProcess st frame base n srcIp).map (none,·)
          else if protocol = ipProtoIcmp then (icmpProcess st frame base n srcIp).map (none,·)
          else some (none,st)

def netProcessFrame (other : NetState → Bytes → Option Errno × NetState) (st : NetState)
    (frame : Bytes) : Option (Option Errno × NetState) :=
  if frame.length < 14 then some (some .einval,st)
  else
    (read16 frame 12).bind fun type =>
    if type = ethTypeIpv4 then ipReceive st frame else some (other st frame)

inductive OptionsInside (frame : Bytes) (stop : Nat) : Nat → Prop where
  | done {o : Nat} : stop ≤ o → OptionsInside frame stop o
  | endMark {o : Nat} : o < stop → o < frame.length → byteAt frame o = 0xFF →
      OptionsInside frame stop o
  | padding {o : Nat} : o < stop → o < frame.length → byteAt frame o = 0 →
      OptionsInside frame stop (o+1) → OptionsInside frame stop o
  | cut {o : Nat} : o+1 = stop → o < frame.length → OptionsInside frame stop o
  | overlong {o : Nat} : o+1 < stop → o+1 < frame.length → byteAt frame o ≠ 0 →
      stop < o+2+(byteAt frame (o+1)).toNat → OptionsInside frame stop o
  | option {o : Nat} : o+1 < stop → o+1 < frame.length → byteAt frame o ≠ 0xFF →
      byteAt frame o ≠ 0 → o+2+(byteAt frame (o+1)).toNat ≤ stop →
      (byteAt frame o = 1 ∨ byteAt frame o = 3 → 4 ≤ (byteAt frame (o+1)).toNat →
        o+6 ≤ frame.length) →
      OptionsInside frame stop (o+2+(byteAt frame (o+1)).toNat) →
      OptionsInside frame stop o

section
variable (st : NetState) (frame : Bytes) (stop o base n : Nat) (srcIp : UInt32)

theorem optionsInside_step (ho : o < stop) : OptionsInside frame stop o ↔
    o+1 ≤ frame.length ∧ (byteAt frame o ≠ 0xFF → (byteAt frame o = 0 → OptionsInside frame stop (o+1)) ∧
      (byteAt frame o ≠ 0 → o+1 < stop → o+1+1 ≤ frame.length ∧ (o+2+(byteAt frame (o+1)).toNat ≤ stop →
        (byteAt frame o = 1 ∨ byteAt frame o = 3 → 4 ≤ (byteAt frame (o+1)).toNat →
          o+2+4 ≤ frame.length) ∧ OptionsInside frame stop (o+2+(byteAt frame (o+1)).toNat)))) := by
  constructor
  · intro h
    cases h with
    | done h => omega
    | endMark _ hlen hend => exact ⟨hlen,fun hne => absurd hend hne⟩
    | padding _ hlen hz hn => exact ⟨hlen,fun _ => ⟨fun _ => hn,fun hne => absurd hz hne⟩⟩
    | cut hs hlen =>
      exact ⟨hlen,fun _ => ⟨fun _ => .done (by omega),fun _ hlt => by omega⟩⟩
    | overlong hs hlen hne hov =>
      exact ⟨by omega,fun _ => ⟨fun hz => absurd hz hne,fun _ _ => ⟨hlen,by omega⟩⟩⟩
    | option hs hlen hend hne hf hv hn =>
      exact ⟨by omega,fun _ => ⟨fun hz => absurd hz hne,fun _ _ => ⟨hlen,fun _ => ⟨hv,hn⟩⟩⟩⟩
  rintro ⟨hlen,hr⟩
  by_cases hend : byteAt frame o = 0xFF
  · exact .endMark ho hlen hend
  obtain ⟨hpad,hopt⟩ := hr hend
  by_cases hz : byteAt frame o = 0
  · exact .padding ho hlen hz (hpad hz)
  rcases lt_or_ge (o+1) stop with hlt | hge
  · obtain ⟨hl',hf⟩ := hopt hz hlt
    rcases lt_or_ge stop (o+2+(byteAt frame (o+1)).toNat) with hov | hle
    · exact .overlong hlt hl' hz hov
    · exact .option hlt hl' hend hz hle (hf hle).1 (hf hle).2
  · exact .cut (by omega) hlen

theorem scanOptions_inside (iface : Iface) :
    (scanOptions frame stop o iface).isSome = true ↔ OptionsInside frame stop o := by
  induction hk : stop-o using Nat.strong_induction_on generalizing o iface with
  | _ k ih =>
    rw [scanOptions]
    by_cases ho : o < stop
    · have hpad := fun iface => ih (stop-(o+1)) (by omega) (o+1) iface rfl
      have hn := fun iface => ih (stop-(o+2+(byteAt frame (o+1)).toNat)) (by omega)
        (o+2+(byteAt frame (o+1)).toNat) iface rfl
      rw [if_pos ho,read8,load_bind_isSome,optionsInside_step frame stop o ho]
      apply and_congr_right
      intro hlen
      by_cases hend : byteAt frame o = 0xFF
      · simp [hend]
      by_cases hz : byteAt frame o = 0
      · simp [hz,hpad]
      rcases lt_or_ge (o+1) stop with hlt | hge
      · simp only [hend,hz,if_false,Nat.not_le.mpr hlt,read8,load_bind_isSome,ne_eq,
          not_false_eq_true,hlt,true_implies,false_implies,true_and]
        apply and_congr_right
        intro hl'
        rcases lt_or_ge stop (o+2+(byteAt frame (o+1)).toNat) with hov | hle
        · simp [hov,Nat.not_le.mpr hov]
        rw [if_neg (Nat.not_lt.mpr hle)]
        simp only [hle,true_implies]
        split
        · rename_i hm
          rw [readRaw32,load_bind_isSome,hn]
          simp [hm.1,hm.2]
        split
        · rename_i hr
          rw [readRaw32,load_bind_isSome,hn]
          simp [hr.1,hr.2]
        · grind
      · simp [hend,hz,hge,Nat.not_lt.mpr hge]
    · rw [if_neg ho]
      simp only [Option.isSome_some,true_iff]
      exact .done (by omega)

def DhcpCovered (st : NetState) (frame : Bytes) (base n : Nat) : Prop :=
  240 ≤ n → base+1 ≤ frame.length ∧ (byteAt frame base = 2 → base+16+4 ≤ frame.length ∧
    (st.iface.isSome = true → raw32 frame (base+16) ≠ 0 →
      OptionsInside frame (base+240+312) (base+240)))

theorem dhcpRecvHandler_covered :
    (dhcpRecvHandler st frame base n).isSome = true ↔ DhcpCovered st frame base n := by
  unfold dhcpRecvHandler DhcpCovered
  rcases lt_or_ge n 240 with hn | hn
  · simp [hn,Nat.not_le.mpr hn]
  rw [if_neg (by omega)]
  simp only [hn,true_implies,read8,load_bind_isSome]
  apply and_congr_right
  intro _
  by_cases hop : byteAt frame base = 2
  · simp only [hop,ne_eq,not_true_eq_false,if_false,readRaw32,load_bind_isSome,true_implies]
    apply and_congr_right
    intro _
    cases hi : st.iface with
    | none => simp
    | some iface =>
      by_cases hip : raw32 frame (base+16) = 0
      · simp [hip]
      · simp [hip,Option.isSome_bind,scanOptions_inside]
  · simp [hop]

def DhcpBound (st : NetState) (port : UInt16) : Prop :=
  ∃ s, st.udp.find? (fun s => s.inUse && s.localPort == port) = some s ∧ s.callback = .dhcp

def UdpCovered (st : NetState) (frame : Bytes) (base n : Nat) : Prop :=
  8 ≤ n → base+4 ≤ frame.length ∧
    (DhcpBound st (be16 frame (base+2)) → DhcpCovered st frame (base+8) (n-8))

theorem udpProcess_covered : (udpProcess st frame base n).isSome = true ↔ UdpCovered st frame base n := by
  unfold udpProcess UdpCovered DhcpBound
  rcases lt_or_ge n 8 with hn | hn
  · simp [hn,Nat.not_le.mpr hn]
  rw [if_neg (by omega)]
  simp only [hn,true_implies,read16,load_bind_isSome]
  have hp : (base+2+2 ≤ frame.length ∧ base+2 ≤ frame.length) ↔ base+4 ≤ frame.length := by omega
  rw [← and_assoc,hp]
  apply and_congr_right
  intro _
  cases hf : st.udp.find? (fun s => s.inUse && s.localPort == be16 frame (base+2)) with
  | none => simp
  | some s => cases hcb : s.callback <;> simp [hcb,dhcpRecvHandler_covered]

def IcmpCovered (st : NetState) (frame : Bytes) (base n : Nat) : Prop :=
  8 ≤ n → base+1 ≤ frame.length ∧
    (byteAt frame base = 0 → st.ping.active = true → base+8 ≤ frame.length) ∧
    (byteAt frame base = 8 → base+min n 512 ≤ frame.length)

theorem icmpProcess_covered (hi : st.iface.isSome = true) :
    (icmpProcess st frame base n srcIp).isSome = true ↔ IcmpCovered st frame base n := by
  unfold icmpProcess IcmpCovered
  rcases lt_or_ge n 8 with hn | hn
  · simp [hn,Nat.not_le.mpr hn]
  have hc : ¬ (n < 8 ∨ st.iface.isNone = true) := by
    rw [← Option.not_isSome,hi]
    simp only [Bool.not_true,Bool.false_eq_true,or_false]
    omega
  rw [if_neg hc]
  simp only [hn,true_implies,read8,load_bind_isSome]
  apply and_congr_right
  intro _
  by_cases h0 : byteAt frame base = 0
  · have h8 : byteAt frame base ≠ 8 := by rw [h0]; decide
    cases hp : st.ping.active with
    | false => simp [h0]
    | true =>
      simp only [h0,if_true,Bool.not_true,Bool.false_eq_true,if_false,read16,load_bind_isSome]
      split <;> simp <;> omega
  by_cases h8 : byteAt frame base = 8
  · have hmin : base+4+(min n 512-4) = base+min n 512 := by omega
    simp [h8,readBytes,load_bind_isSome,hmin]
  · simp [h0,h8]

def TcpCovered (st : NetState) (frame : Bytes) (base n : Nat) (srcIp : UInt32) : Prop :=
  20 ≤ n → base+14 ≤ frame.length ∧ (0 < copiedBytes st.tcp (segmentAt frame base n srcIp) →
      base+dataOffset (byteAt frame (base+12)) +
        copiedBytes st.tcp (segmentAt frame base n srcIp) ≤ frame.length)

theorem tcpProcess_covered :
    (tcpProcess st frame base n srcIp).isSome = true ↔ TcpCovered st frame base n srcIp := by
  unfold tcpProcess TcpCovered
  rcases lt_or_ge n 20 with hn | hn
  · simp [hn,Nat.not_le.mpr hn]
  rw [if_neg (by omega)]
  simp only [hn,true_implies,read8,read16,read32,load_bind_isSome]
  have hh : ∀ P : Prop, (base+2+2 ≤ frame.length ∧ base+2 ≤ frame.length ∧
      base+4+4 ≤ frame.length ∧ base+13+1 ≤ frame.length ∧
      base+12+1 ≤ frame.length ∧ P) ↔ (base+14 ≤ frame.length ∧ P) := by
    intro P
    constructor
    · rintro ⟨_,_,_,h,_,hP⟩
      exact ⟨h,hP⟩
    · rintro ⟨h,hP⟩
      exact ⟨by omega,by omega,by omega,h,by omega,hP⟩
  rw [hh]
  apply and_congr_right
  intro _
  rw [← segmentAt]
  split
  · rename_i hc
    simp [hc,readBytes,load_bind_isSome]
  · rename_i hc
    simp [hc]

def Addressed (st : NetState) (frame : Bytes) : Prop :=
  34 ≤ frame.length ∧ be16 frame 12 = ethTypeIpv4 ∧ ihl (byteAt frame 14) ≤ (be16 frame 16).toNat ∧
    ∃ iface, st.iface = some iface ∧ (raw32 frame 30 = iface.ip ∨ raw32 frame 30 = 0xFFFFFFFF)

def Covered (st : NetState) (frame : Bytes) : Prop :=
  let base := 14+ihl (byteAt frame 14)
  let n := (be16 frame 16).toNat-ihl (byteAt frame 14)
  Addressed st frame → (byteAt frame 23 = ipProtoUdp → UdpCovered st frame base n) ∧
    (byteAt frame 23 = ipProtoTcp → TcpCovered st frame base n (raw32 frame 26)) ∧
    (byteAt frame 23 = ipProtoIcmp → IcmpCovered st frame base n)

theorem ipReceive_covered (hty : be16 frame 12 = ethTypeIpv4) :
    (ipReceive st frame).isSome = true ↔ Covered st frame := by
  unfold ipReceive Covered Addressed
  cases hi : st.iface with
  | none => simp
  | some iface =>
    rcases lt_or_ge frame.length 34 with hlen | hlen
    · simp [hlen,Nat.not_le.mpr hlen]
    have hin : 14+1 ≤ frame.length ∧ 16+2 ≤ frame.length ∧ 30+4 ≤ frame.length ∧
        23+1 ≤ frame.length ∧ 26+4 ≤ frame.length := by omega
    obtain ⟨h14,h16,h30,h23,h26⟩ := hin
    simp only [Nat.not_lt.mpr hlen,if_false,read8,read16,readRaw32,load_bind_isSome,h14,h16,
      true_and]
    rcases lt_or_ge (be16 frame 16).toNat (ihl (byteAt frame 14)) with ht | ht
    · simp [ht,Nat.not_le.mpr ht]
    rw [if_neg (Nat.not_lt.mpr ht)]
    simp only [load_bind_isSome,h30,true_and]
    by_cases hdst : raw32 frame 30 = iface.ip ∨ raw32 frame 30 = 0xFFFFFFFF
    · have hs : st.iface.isSome = true := by simp [hi]
      rw [if_neg (by tauto)]
      simp only [load_bind_isSome,h23,h26,true_and,hty,ht,Option.some.injEq,
        exists_eq_left',hdst,true_implies]
      by_cases hu : byteAt frame 23 = ipProtoUdp
      · simp [hu,udpProcess_covered,show ipProtoUdp ≠ ipProtoTcp by decide,
          show ipProtoUdp ≠ ipProtoIcmp by decide]
      by_cases htcp : byteAt frame 23 = ipProtoTcp
      · simp [htcp,tcpProcess_covered,show ipProtoTcp ≠ ipProtoUdp by decide,
          show ipProtoTcp ≠ ipProtoIcmp by decide]
      by_cases hic : byteAt frame 23 = ipProtoIcmp
      · simp [hic,icmpProcess_covered st frame _ _ _ hs,
          show ipProtoIcmp ≠ ipProtoUdp by decide,show ipProtoIcmp ≠ ipProtoTcp by decide]
      · simp [hu,htcp,hic]
    · rw [if_pos (by tauto)]
      simp [hdst]

end

theorem netProcessFrame_covered (other : NetState → Bytes → Option Errno × NetState)
    (st : NetState) (frame : Bytes) :
    (netProcessFrame other st frame).isSome = true ↔ Covered st frame := by
  unfold netProcessFrame
  rcases lt_or_ge frame.length 14 with hlen | hlen
  · have hshort : ¬ Addressed st frame := fun h => by
      have := h.1
      omega
    simp [hlen,Covered,hshort]
  rw [if_neg (by omega),read16,load_bind_isSome]
  simp only [show 12+2 ≤ frame.length by omega,true_and]
  by_cases htype : be16 frame 12 = ethTypeIpv4
  · rw [if_pos htype,ipReceive_covered st frame htype]
  · have hother : ¬ Addressed st frame := fun h => htype h.2.1
    simp [htype,Covered,hother]

def bareUdpHeader : Bytes :=
  List.replicate 12 0 ++ [0x08,0x00,0x45,0,0,28] ++ List.replicate 5 0 ++ [17] ++
    List.replicate 6 0 ++ [255,255,255,255]

def listening : NetState :=
  ⟨some ⟨0x0100007F,0,0,true⟩,[],⟨false,0,0,0,false⟩,false,Stack.init none [],[]⟩

theorem bareUdpHeader_read_outside : bareUdpHeader.length = 34 ∧
    netProcessFrame (fun st _ => (none,st)) listening bareUdpHeader = none := by
  refine ⟨by decide,?_⟩
  decide +kernel

/-! `ip_checksum`: the folding loop keeps the sum of the words modulo 65535. -/

open List

variable {a : Bytes}

theorem wordSum_append (h : a.length%2 = 0) (b : Bytes) : wordSum (a ++ b) = wordSum a+wordSum b := by
  fun_induction wordSum a with
  | case1 => simp
  | case2 => simp at h
  | case3 x y a ih =>
    simp only [length_cons] at h
    simp only [cons_append,wordSum,ih (by omega)]
    omega

theorem wordSum_le (bs : Bytes) : wordSum bs ≤ 65535*bs.length := by
  fun_induction wordSum bs with
  | case1 => simp
  | case2 b => have := b.toNat_lt; simp; omega
  | case3 b c rest ih =>
    have hb := b.toNat_lt
    have hc := c.toNat_lt
    simp only [length_cons]
    omega

theorem foldSum_spec (n : Nat) : foldSum n < 65536 ∧ foldSum n%65535 = n%65535 ∧ (foldSum n = 0 ↔ n = 0) := by
  fun_induction foldSum n with
  | case1 n h => exact ⟨h,rfl,Iff.rfl⟩
  | case2 n h ih => omega

theorem ipChecksum_toNat (bs : Bytes) : (ipChecksum bs).toNat = 65535-foldSum (wordSum bs) := by
  have h := (foldSum_spec (wordSum bs)).1
  rw [ipChecksum,UInt16.toNat_not,UInt16.toNat_ofNat',Nat.mod_eq_of_lt h]
  rfl

/-- The checksum is zero if the words sum to a positive multiple of 65535. -/
theorem ipChecksum_eq_zero (bs : Bytes) : ipChecksum bs = 0 ↔ 0 < wordSum bs ∧ wordSum bs%65535 = 0 := by
  obtain ⟨h1,h2,h3⟩ := foldSum_spec (wordSum bs)
  rw [← UInt16.toNat_inj,ipChecksum_toNat,UInt16.toNat_zero]
  omega

theorem wordSum_word (h : a.length%2 = 0) (w : UInt16) (b : Bytes) :
    wordSum (a ++ leBytes 2 w.toNat ++ b) = wordSum a+w.toNat+wordSum b := by
  have hw := w.toNat_lt
  rw [append_assoc,wordSum_append h]
  simp only [leBytes,cons_append,nil_append,wordSum,UInt8.toNat_ofNat']
  omega

/-- The packet with `w` in the 16-bit field between `a` and `b`. -/
def packet (a : Bytes) (w : UInt16) (b : Bytes) : Bytes := a ++ leBytes 2 w.toNat ++ b

theorem ipChecksum_stored (a b : Bytes) (ha : a.length%2 = 0) (hl : (packet a 0 b).length ≤ 65535) :
    let stored := packet a (ipChecksum (packet a 0 b)) b
    wordSum (packet a 0 b) < 2^32 ∧ wordSum stored < 2^32 ∧ ipChecksum stored = 0 ∧
      ∀ (p q : Bytes) (w w' : UInt16), stored = packet p w q → p.length%2 = 0 → w ≠ w' →
        ¬ (w = 0 ∧ w' = 0xFFFF) → ¬ (w = 0xFFFF ∧ w' = 0) → ipChecksum (packet p w' q) ≠ 0 := by
  intro stored
  have hlen : stored.length = (packet a 0 b).length := by simp [stored,packet]
  have hw := wordSum_le (packet a 0 b)
  have hs := wordSum_le stored
  have hzero : ipChecksum stored = 0 := by
    obtain ⟨h1,h2,h3⟩ := foldSum_spec (wordSum (packet a 0 b))
    have hc := ipChecksum_toNat (packet a 0 b)
    have hsum : wordSum (packet a 0 b) = wordSum a+0+wordSum b := wordSum_word ha 0 b
    rw [ipChecksum_eq_zero,show wordSum stored = _ from wordSum_word ha _ b]
    omega
  refine ⟨by omega,by omega,hzero,fun p q w w' he hp hne h0 h1 => ?_⟩
  rw [he,ipChecksum_eq_zero,packet,wordSum_word hp] at hzero
  rw [ne_eq,ipChecksum_eq_zero,packet,wordSum_word hp]
  simp only [ne_eq,← UInt16.toNat_inj,UInt16.reduceToNat,UInt16.toNat_zero] at hne h0 h1
  have := w.toNat_lt
  have := w'.toNat_lt
  omega

theorem ipChecksum_stored_short :
    ipChecksum (packet [1,2] (ipChecksum (packet [1,2] 0 [3,4])) [3,4]) = 0 :=
  (ipChecksum_stored [1,2] [3,4] (by decide) (by decide)).2.2.1

end AevOS.Net
