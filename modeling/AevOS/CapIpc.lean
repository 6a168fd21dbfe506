import AevOS.Common
import AevOS.Runs
import AevOS.ArrayPrefix

/-! Capability tokens of `kernel/ipc/cap_ipc.c`: the table of endpoints against the history of
grants and revocations. -/

namespace AevOS.CapIpc
open ArrayPrefix Runs List

def maxEndpoints : Nat := 32
def magicWord : UInt64 := 0xCA704970

inductive EndpointClass where
  | unset | vfs | net | sched | gpu | llm | linuxShim
  deriving DecidableEq

structure Endpoint where
  magic : UInt64
  token : UInt64
  epClass : EndpointClass
  ownerDomain : UInt32
  revoked : Bool
  deriving DecidableEq

structure Message where
  msgType : UInt32
  payloadLen : UInt32
  payload : Nat → UInt8

structure Table where
  eps : Nat → Endpoint
  nextTok : UInt64

def cleared : Endpoint := ⟨0,0,.unset,0,false⟩
def capIpcInit (t : Table) : Table := { t with eps := fun _ => cleared }

def capIpcGrant (t : Table) (ep : EndpointClass) (ownerDomain : UInt32) : UInt64 × Table :=
  match findFirst (fun e => e.magic == 0) maxEndpoints t.eps with
  | some i => (t.nextTok,⟨setAt t.eps i ⟨magicWord,t.nextTok,ep,ownerDomain,false⟩,t.nextTok+1⟩)
  | none => (0,t)

def capIpcValidate (t : Table) (token : UInt64) (expectedEp : EndpointClass) : Bool :=
  if token = 0 then false
  else (firsts t.eps maxEndpoints).any fun e =>
    e.magic == magicWord && e.token == token && !e.revoked && e.epClass == expectedEp

def Endpoint.revoke (e : Endpoint) : Endpoint := { e with revoked := true }

def capIpcRevoke (t : Table) (token : UInt64) : Table :=
  { t with eps := modifyFirst (fun e => e.token == token) Endpoint.revoke maxEndpoints t.eps }

def capIpcDeliver (t : Table) (token : UInt64) (msg : Option Message) : Int :=
  if msg.isNone then -einval
  else if (firsts t.eps maxEndpoints).any fun e =>
    e.magic == magicWord && !e.revoked && e.token == token then 0
  else -eperm

inductive Call where
  | grant (ep : EndpointClass) (ownerDomain : UInt32)
  | revoke (token : UInt64)
  deriving DecidableEq

inductive Event where
  | granted (token : UInt64) (ep : EndpointClass)
  | revoked (token : UInt64)
  deriving DecidableEq

def step (s : Table × List Event) : Call → Table × List Event
  | .grant ep owner =>
    let (token,t) := capIpcGrant s.1 ep owner
    (t,.granted token ep :: s.2)
  | .revoke token => (capIpcRevoke s.1 token,.revoked token :: s.2)

/-- `token` was granted for `ep` and not revoked since. -/
def Held (history : List Event) (token : UInt64) (ep : EndpointClass) : Prop :=
  ∃ since before, history = since ++ .granted token ep :: before ∧ .revoked token ∉ since

def Event.issued : Event → Option UInt64
  | .granted token _ => if token = 0 then none else some token
  | .revoked _ => none

def issued (history : List Event) : List UInt64 := history.filterMap Event.issued

def Call.isGrant : Call → Bool
  | .grant _ _ => true
  | .revoke _ => false

def grants (calls : List Call) : Nat := calls.countP Call.isGrant

variable {history : List Event} {token token' : UInt64} {ep : EndpointClass} {i : Nat}
    {calls : List Call}

theorem held_granted {ep' : EndpointClass} : Held (.granted token' ep' :: history) token ep ↔
    (token = token' ∧ ep = ep') ∨ Held history token ep := by
  constructor
  · rintro ⟨since,before,he,hno⟩
    cases since with
    | nil =>
      simp only [nil_append,cons.injEq,Event.granted.injEq] at he
      exact .inl ⟨he.1.1.symm,he.1.2.symm⟩
    | cons e since =>
      simp only [cons_append,cons.injEq] at he
      exact .inr ⟨since,before,he.2,fun h => hno (mem_cons_of_mem e h)⟩
  rintro (⟨rfl,rfl⟩ | ⟨since,before,rfl,hno⟩)
  · exact ⟨[],history,rfl,not_mem_nil⟩
  · refine ⟨.granted token' ep' :: since,before,rfl,?_⟩
    simpa using hno

theorem held_revoked :
    Held (.revoked token' :: history) token ep ↔ Held history token ep ∧ token ≠ token' := by
  constructor
  · rintro ⟨since,before,he,hno⟩
    cases since with
    | nil => simp at he
    | cons e since =>
      obtain ⟨rfl,rfl⟩ := he
      simp only [mem_cons,Event.revoked.injEq,not_or] at hno
      exact ⟨⟨since,before,rfl,hno.2⟩,hno.1⟩
  · rintro ⟨⟨since,before,rfl,hno⟩,hne⟩
    exact ⟨.revoked token' :: since,before,rfl,by simp [hne,hno]⟩

def Endpoint.Serves (e : Endpoint) (token : UInt64) (ep : EndpointClass) : Prop :=
  e.magic = magicWord ∧ e.token = token ∧ e.revoked = false ∧ e.epClass = ep

theorem capIpcValidate_iff (t : Table) (token : UInt64) (ep : EndpointClass) :
    capIpcValidate t token ep = true ↔ token ≠ 0 ∧ ∃ i, i < maxEndpoints ∧ (t.eps i).Serves token ep := by
  unfold capIpcValidate
  split
  · rename_i h
    simp [h]
  · rename_i h
    simp [h,Endpoint.Serves,and_assoc]

structure Stands (first next : Nat) (t : Table) (history : List Event) : Prop where
  pos : 0 < first
  counter : t.nextTok = UInt64.ofNat next
  unused : ∀ i < maxEndpoints, (t.eps i).magic = 0 → (t.eps i).token = 0
  used : ∀ i < maxEndpoints, (t.eps i).magic ≠ 0 →
    (t.eps i).magic = magicWord ∧ first ≤ (t.eps i).token.toNat ∧ (t.eps i).token.toNat < next
  distinct : ∀ i < maxEndpoints, ∀ j < maxEndpoints, (t.eps i).magic ≠ 0 → (t.eps j).magic ≠ 0 →
    (t.eps i).token = (t.eps j).token → i = j
  served : ∀ token ep, token ≠ 0 →
    ((∃ i, i < maxEndpoints ∧ (t.eps i).Serves token ep) ↔ Held history token ep)
  nodup : (issued history).Nodup
  range : ∀ token ∈ issued history, first ≤ token.toNat ∧ token.toNat < next

theorem capIpcInit_stands (t : Table) (h : 0 < t.nextTok.toNat) :
    Stands t.nextTok.toNat t.nextTok.toNat (capIpcInit t) [] where
  pos := h
  counter := by simp [capIpcInit]
  unused := by simp [capIpcInit,cleared]
  used := by simp [capIpcInit,cleared]
  distinct := by simp [capIpcInit,cleared]
  served := by
    intro token ep _
    constructor
    · rintro ⟨i,_,hm,_⟩
      simp [capIpcInit,cleared,magicWord] at hm
    · rintro ⟨since,before,he,_⟩
      simp at he
  nodup := by simp [issued]
  range := by simp [issued]

theorem ofNat_ne_zero {n : Nat} (h : 0 < n) (hn : n < 2^64) : UInt64.ofNat n ≠ 0 := by
  rw [Ne,UInt64.ofNat_eq_iff_mod_eq_toNat,UInt64.toNat_zero]
  omega

section
variable {first next : Nat} {t : Table} {history : List Event}

theorem Stands.slot_unique (h : Stands first next t history) (hne : token ≠ 0) {j : Nat}
    (hi : i < maxEndpoints) (hj : j < maxEndpoints) (hti : (t.eps i).token = token)
    (htj : (t.eps j).token = token) : i = j := by
  have hin : ∀ k, k < maxEndpoints → (t.eps k).token = token → (t.eps k).magic ≠ 0 := by
    intro k hk htk hm
    exact hne (htk.symm.trans (h.unused k hk hm))
  exact h.distinct i hi j hj (hin i hi hti) (hin j hj htj) (hti.trans htj.symm)

theorem capIpcRevoke_none
    (hf : findFirst (fun e : Endpoint => e.token == token) maxEndpoints t.eps = none) :
    capIpcRevoke t token = t := by simp only [capIpcRevoke,modifyFirst,hf]

theorem capIpcRevoke_eps {k : Nat}
    (hf : findFirst (fun e : Endpoint => e.token == token) maxEndpoints t.eps = some k) (i : Nat) :
    (capIpcRevoke t token).eps i = if i = k then (t.eps i).revoke else t.eps i := by
  simp only [capIpcRevoke,modifyFirst,hf]
  by_cases hi : i = k
  · simp [hi]
  · simp [hi]

theorem Stands.revoke (h : Stands first next t history) (token : UInt64) :
    Stands first next (capIpcRevoke t token) (.revoked token :: history) := by
  cases hf : findFirst (fun e : Endpoint => e.token == token) maxEndpoints t.eps with
  | none =>
    have hno := findFirst_none hf
    rw [capIpcRevoke_none hf]
    refine ⟨h.pos,h.counter,h.unused,h.used,h.distinct,?_,h.nodup,h.range⟩
    intro token' ep hne
    rw [held_revoked,← h.served token' ep hne]
    refine ⟨fun hs => ⟨hs,?_⟩,And.left⟩
    rintro rfl
    obtain ⟨i,hi,hs⟩ := hs
    have := hno (t.eps i) (mem_firsts.mpr ⟨i,hi,rfl⟩)
    simp [hs.2.1] at this
  | some k =>
    obtain ⟨hk,htok,_⟩ := findFirst_some hf
    have htok : (t.eps k).token = token := by simpa using htok
    have heps := capIpcRevoke_eps hf
    have hm : ∀ i, ((capIpcRevoke t token).eps i).magic = (t.eps i).magic := by
      intro i
      rw [heps]
      split <;> rfl
    have ht : ∀ i, ((capIpcRevoke t token).eps i).token = (t.eps i).token := by
      intro i
      rw [heps]
      split <;> rfl
    refine ⟨h.pos,h.counter,?_,?_,?_,?_,h.nodup,h.range⟩
    · simpa only [hm,ht] using h.unused
    · simpa only [hm,ht] using h.used
    · simpa only [hm,ht] using h.distinct
    intro token' ep hne
    rw [held_revoked,← h.served token' ep hne]
    constructor
    · rintro ⟨i,hi,hs⟩
      rw [heps] at hs
      by_cases hik : i = k
      · rw [if_pos hik] at hs
        exact absurd hs.2.2.1 (by simp [Endpoint.revoke])
      rw [if_neg hik] at hs
      refine ⟨⟨i,hi,hs⟩,?_⟩
      rintro rfl
      exact hik (h.slot_unique hne hi hk hs.2.1 htok)
    rintro ⟨⟨i,hi,hs⟩,hnt⟩
    have hik : i ≠ k := by
      rintro rfl
      exact hnt (hs.2.1.symm.trans htok)
    refine ⟨i,hi,?_⟩
    rw [heps,if_neg hik]
    exact hs

theorem issued_granted (h : token ≠ 0) (ep : EndpointClass) :
    issued (.granted token ep :: history) = token :: issued history := by simp [issued,Event.issued,h]

theorem Stands.grant_none (h : Stands first next t history) (ep : EndpointClass) :
    Stands first next t (.granted 0 ep :: history) := by
  refine ⟨h.pos,h.counter,h.unused,h.used,h.distinct,?_,?_,?_⟩
  · intro token ep' hne
    rw [held_granted,h.served token ep' hne]
    exact ⟨.inr,fun ho => ho.resolve_left fun he => hne he.1⟩
  · exact h.nodup
  · exact h.range

theorem Stands.fresh (h : Stands first next t history) (hn : next < 2^64)
    (hi : i < maxEndpoints) (hm : (t.eps i).magic ≠ 0) : (t.eps i).token ≠ t.nextTok := by
  intro he
  have := (h.used i hi hm).2.2
  rw [he,h.counter,UInt64.toNat_ofNat_of_lt' hn] at this
  omega

end

section Grant
variable {first next k : Nat} {t t' : Table} {history : List Event} {ep : EndpointClass} {owner : UInt32}

theorem Stands.grant_distinct (h : Stands first next t history) (hn : next < 2^64)
    (hs : t'.eps k = ⟨magicWord,t.nextTok,ep,owner,false⟩)
    (ho : ∀ i, i ≠ k → t'.eps i = t.eps i) {j : Nat} (hi : i < maxEndpoints)
    (hj : j < maxEndpoints) (hmi : (t'.eps i).magic ≠ 0) (hmj : (t'.eps j).magic ≠ 0)
    (he : (t'.eps i).token = (t'.eps j).token) : i = j := by
  by_cases hik : i = k
  · by_cases hjk : j = k
    · omega
    · rw [ho j hjk] at hmj he
      rw [hik,hs] at he
      exact absurd he.symm (h.fresh hn hj hmj)
  rw [ho i hik] at hmi he
  by_cases hjk : j = k
  · rw [hjk,hs] at he
    exact absurd he (h.fresh hn hi hmi)
  · rw [ho j hjk] at hmj he
    exact h.distinct i hi j hj hmi hmj he

theorem grant_serves (hk : k < maxEndpoints) (hf : (t.eps k).magic = 0)
    (hsl : t'.eps k = ⟨magicWord,t.nextTok,ep,owner,false⟩) (ho : ∀ i, i ≠ k → t'.eps i = t.eps i)
    (token : UInt64) (ep' : EndpointClass) : (∃ i, i < maxEndpoints ∧ (t'.eps i).Serves token ep') ↔
      (token = t.nextTok ∧ ep' = ep) ∨ ∃ i, i < maxEndpoints ∧ (t.eps i).Serves token ep' := by
  constructor
  · rintro ⟨i,hi,hs⟩
    by_cases hik : i = k
    · rw [hik,hsl] at hs
      exact .inl ⟨hs.2.1.symm,hs.2.2.2.symm⟩
    · rw [ho i hik] at hs
      exact .inr ⟨i,hi,hs⟩
  rintro (⟨rfl,rfl⟩ | ⟨i,hi,hs⟩)
  · refine ⟨k,hk,?_⟩
    rw [hsl]
    exact ⟨rfl,rfl,rfl,rfl⟩
  have hik : i ≠ k := by
    rintro rfl
    rw [hs.1] at hf
    simp [magicWord] at hf
  exact ⟨i,hi,by rw [ho i hik]; exact hs⟩

theorem Stands.grant_some (h : Stands first next t history) (hf : first ≤ next) (hn : next < 2^64)
    (hk : k < maxEndpoints) (hfr : (t.eps k).magic = 0) (hc : t'.nextTok = t.nextTok+1)
    (hs : t'.eps k = ⟨magicWord,t.nextTok,ep,owner,false⟩) (ho : ∀ i, i ≠ k → t'.eps i = t.eps i) :
    Stands first (next+1) t' (.granted t.nextTok ep :: history) := by
  have htok : t.nextTok.toNat = next := by rw [h.counter,UInt64.toNat_ofNat_of_lt' hn]
  have hne : t.nextTok ≠ 0 := h.counter ▸ ofNat_ne_zero (lt_of_lt_of_le h.pos hf) hn
  have hiss : issued (.granted t.nextTok ep :: history) = t.nextTok :: issued history := issued_granted hne ep
  refine ⟨h.pos,?_,?_,?_,fun i hi j hj => h.grant_distinct hn hs ho hi hj,?_,?_,?_⟩
  · simp [hc,h.counter]
  · intro i hi hm
    by_cases hik : i = k
    · subst hik
      rw [hs] at hm
      simp [magicWord] at hm
    · rw [ho i hik] at hm ⊢
      exact h.unused i hi hm
  · intro i hi hm
    by_cases hik : i = k
    · subst hik
      rw [hs]
      exact ⟨rfl,by simp only [htok]; omega,by simp only [htok]; omega⟩
    · rw [ho i hik] at hm ⊢
      have := h.used i hi hm
      exact ⟨this.1,this.2.1,by omega⟩
  · intro token ep' hnz
    rw [held_granted,← h.served token ep' hnz]
    exact grant_serves hk hfr hs ho token ep'
  · rw [hiss]
    refine nodup_cons.mpr ⟨fun hm => ?_,h.nodup⟩
    have := (h.range _ hm).2
    omega
  rw [hiss]
  intro token hm
  cases mem_cons.mp hm with
  | inl he =>
    rw [he]
    omega
  | inr hm =>
    have := h.range token hm
    omega

end Grant

theorem run_stands {first next : Nat} {s : Table × List Event} (h : Stands first next s.1 s.2)
    (hfr : first ≤ next) (hmax : next+grants calls ≤ 2^64) :
    ∃ next', Stands first next' (run step s calls).1 (run step s calls).2 := by
  induction calls generalizing s next with
  | nil => exact ⟨next,h⟩
  | cons c calls ih =>
    cases c with
    | revoke token =>
      have hg : grants (.revoke token :: calls) = grants calls :=
        countP_cons_of_neg (by simp [Call.isGrant])
      exact ih (h.revoke token) hfr (hg ▸ hmax)
    | grant ep owner =>
      have hg : grants (.grant ep owner :: calls) = grants calls+1 :=
        countP_cons_of_pos rfl
      cases hf : findFirst (fun e : Endpoint => e.magic == 0) maxEndpoints s.1.eps with
      | none =>
        have hs : step s (.grant ep owner) = (s.1,.granted 0 ep :: s.2) := by
          simp only [step,capIpcGrant,hf]
        refine ih ?_ hfr (by omega)
        rw [hs]
        exact h.grant_none ep
      | some k =>
        obtain ⟨hk,hfe,_⟩ := findFirst_some hf
        have hs : step s (.grant ep owner) =
            (⟨setAt s.1.eps k ⟨magicWord,s.1.nextTok,ep,owner,false⟩,s.1.nextTok+1⟩,
              .granted s.1.nextTok ep :: s.2) := by
          simp only [step,capIpcGrant,hf]
        have hnew : Stands first (next+1) (step s (.grant ep owner)).1 (step s (.grant ep owner)).2 := by
          rw [hs]
          exact h.grant_some hfr (by omega) hk (by simpa using hfe) rfl (setAt_self _ _ _)
            fun i hi => setAt_ne _ _ hi
        exact ih hnew (by omega) (by omega)

def opened (t : Table) : Table × List Event := (capIpcInit t,[])

theorem opened_stands {t : Table} (h : 0 < t.nextTok.toNat) (hmax : t.nextTok.toNat+grants calls ≤ 2^64) :
    ∃ next, Stands t.nextTok.toNat next (run step (opened t) calls).1 (run step (opened t) calls).2 :=
  run_stands (s := opened t) (capIpcInit_stands t h) (le_refl _) hmax

theorem capIpcValidate_iff_held (t : Table) (calls : List Call) (h : 0 < t.nextTok.toNat)
    (hmax : t.nextTok.toNat+grants calls ≤ 2^64) :
    (∀ token ep, capIpcValidate (run step (opened t) calls).1 token ep = true ↔
      token ≠ 0 ∧ Held (run step (opened t) calls).2 token ep) ∧
    (issued (run step (opened t) calls).2).Nodup := by
  obtain ⟨next,hs⟩ := opened_stands h hmax
  refine ⟨fun token ep => ?_,hs.nodup⟩
  rw [capIpcValidate_iff]
  exact and_congr_right fun hne => hs.served token ep hne

def boot : Table := ⟨fun _ => cleared,1⟩

theorem capIpcValidate_iff_held_boot : (∀ token ep, capIpcValidate
        (run step (opened boot) [.grant .vfs 1,.grant .net 2,.revoke 1,.revoke 0,.grant .vfs 1]).1 token ep = true ↔
      token ≠ 0 ∧ Held
        (run step (opened boot) [.grant .vfs 1,.grant .net 2,.revoke 1,.revoke 0,.grant .vfs 1]).2 token ep) ∧
    Held (run step (opened boot) [.grant .vfs 1,.grant .net 2,.revoke 1,.revoke 0,.grant .vfs 1]).2 2 .net ∧
    ¬ Held (run step (opened boot) [.grant .vfs 1,.grant .net 2,.revoke 1,.revoke 0,.grant .vfs 1]).2 1 .vfs := by
  have h := (capIpcValidate_iff_held boot [.grant .vfs 1,.grant .net 2,.revoke 1,.revoke 0,.grant .vfs 1]
    (by decide) (by decide)).1
  refine ⟨h,((h 2 .net).mp (by decide +kernel)).2,fun hheld => ?_⟩
  have hfalse := (h 1 .vfs).mpr ⟨by decide,hheld⟩
  revert hfalse
  decide +kernel

theorem capIpcDeliver_iff_held (t : Table) (calls : List Call) (h : 0 < t.nextTok.toNat)
    (hmax : t.nextTok.toNat+grants calls ≤ 2^64) (token : UInt64) (msg : Message) :
    capIpcDeliver (run step (opened t) calls).1 token (some msg) = 0 ↔
      token ≠ 0 ∧ ∃ ep, Held (run step (opened t) calls).2 token ep := by
  obtain ⟨next,hs⟩ := opened_stands h hmax
  have hany : capIpcDeliver (run step (opened t) calls).1 token (some msg) = 0 ↔
      ∃ i, i < maxEndpoints ∧ ∃ ep, ((run step (opened t) calls).1.eps i).Serves token ep := by
    unfold capIpcDeliver
    simp [Endpoint.Serves,eperm,and_assoc]
    tauto
  rw [hany]
  constructor
  · rintro ⟨i,hi,ep,hsr⟩
    have hu := (hs.used i hi (by rw [hsr.1]; decide)).2.1
    have hne : token ≠ 0 := by
      rintro rfl
      rw [hsr.2.1] at hu
      simp at hu
      omega
    exact ⟨hne,ep,(hs.served token ep hne).mp ⟨i,hi,hsr⟩⟩
  · rintro ⟨hne,ep,hh⟩
    obtain ⟨i,hi,hsr⟩ := (hs.served token ep hne).mpr hh
    exact ⟨i,hi,ep,hsr⟩

theorem capIpcDeliver_iff_held_boot : ∃ ep, Held (run step (opened boot) [.grant .vfs 1,.grant .net 2]).2 2 ep :=
  ((capIpcDeliver_iff_held boot [.grant .vfs 1,.grant .net 2] (by decide) (by decide) 2 ⟨0,0,fun _ => 0⟩).mp
    (by decide +kernel)).2

end AevOS.CapIpc
