import Qbman.Lib.Server
import Qbman.Mc.Api
import Qbman.Mc.Complete
import Qbman.Mc.Shadow

/-!
# The management interface as remote calls

`rpcSys` is `mcSys` with the management functions as callers and a server in the hardware: a call
fills the line that `qbman_swp_mc_start` hands out from the shadow, the server reads the call back
from the command register, and the response comes back through the response register. A call polls
1001 times and then gives up. With a shadow that is aligned to 64 bytes this is a server behind a
function call, as long as no call gives up (`rpcSys_sequential`). Whether or not calls give up, the
server executes no call twice and none out of order, but a call after one that gave up is not
executed and may return the reply to an earlier one (`rpcSys_safe`).

The server reads each call as `McApi.sent` says: with its arguments as the command holds them, and
`qbman_cgr_reject_statistics` as `qbman_cq_dequeue_statistics`.
-/

namespace Qbman

/-- A call: the function, the portal as it was, and the line from `qbman_swp_mc_start`. -/
structure RpcCall where
  api : McApi
  swp : QbmanSwp
  start : Line

/-- What the function leaves if the portal showed `polls` at its polls. -/
def RpcCall.run (c : RpcCall) (polls : List Region) (mem : ApiMem) : Option ApiOutcome :=
  c.api.run c.swp c.start (pollsOf polls) mem

/-- A command that the server executed: its place, the call that the server read, and the reply. -/
structure Served where
  index : Nat
  call : McApi
  reply : Line

/-- A portal with its shadow, and the server. `calls` are the calls that submitted a command, `polls
k` is what the portal showed at the polls of call `k`. -/
structure RpcState (σ : Type) where
  mc : McState
  shadow : Bytes.Mem
  server : σ
  calls : List RpcCall
  polls : Nat → List Region
  served : List Served

inductive RpcLabel where
  | call (a : McApi)
  | respond (k : Nat) (l : Line)
  | poll

namespace RpcState

variable {σ : Type}

section Host

variable (s : RpcState σ)

def host : McHost := ⟨s.mc.swp, s.shadow⟩

/-- The line that the next call is handed. -/
def start : Line := lineAt (qbmanSwpMcStart s.mc.swp s.shadow).2 s.host.cmd

/-- The line that a call submits. -/
def command (r : McRequest) : Line := lineAt (s.host.filled r) s.host.cmd

/-- After a call has submitted its request. -/
def afterCall (impl : Impl) (a : McApi) (r : McRequest) : RpcState σ :=
  { s with
    mc := s.mc.afterSubmit impl (some mcLoopvar) (s.command r) r.verb
    shadow := (s.host.afterCommand r).shadow
    calls := s.calls ++ [⟨a, s.mc.swp, s.start⟩] }

/-- After the server has read call `a` from command `k`, whose valid bit is `v`, and replied `l`. -/
def afterRespond (impl : Impl) (S : Rpc.Server σ McApi Line) (k : Nat) (v : Bool) (a : McApi)
    (l : Line) : RpcState σ :=
  { s with
    mc := s.mc.afterRespond impl k v l
    server := (S.serve s.server a).1
    served := s.served ++ [⟨k, a, (S.serve s.server a).2⟩] }

/-- After a poll of the call that runs. -/
def afterPoll (n : Option Nat) : RpcState σ :=
  let k := s.mc.results.length
  { s with
    mc := s.mc.afterPoll n
    shadow := (s.host.afterPoll s.mc.cena).shadow
    polls := Function.update s.polls k (s.polls k ++ [s.mc.cena]) }

@[simp] theorem afterRespond_mc (impl : Impl) (S : Rpc.Server σ McApi Line) (k : Nat) (v : Bool)
    (a : McApi) (l : Line) :
    (s.afterRespond impl S k v a l).mc = s.mc.afterRespond impl k v l := rfl

@[simp] theorem afterPoll_mc (n : Option Nat) : (s.afterPoll n).mc = s.mc.afterPoll n := rfl

end Host

end RpcState

/-- Calls, the server and the polls. The hardware may set the valid bit of a response. -/
def rpcSys {σ : Type} (impl : Impl) (S : Rpc.Server σ McApi Line) (σ₀ : σ) :
    Trans.Sys (RpcState σ) RpcLabel where
  init s := (mcSys impl (some mcLoopvar)).init s.mc ∧ s.mc.swp.sys.cena % 64 = 0 ∧ s.server = σ₀ ∧
    s.calls = [] ∧ (∀ k, s.polls k = []) ∧ s.served = []
  step s l t := match l with
    | .call a => ∃ r, a.request = some r ∧ s.mc.phase = .idle ∧ t = s.afterCall impl a r
    | .respond k l => ∃ c a, s.mc.submitted[k]? = some c ∧ s.mc.accepted k = true ∧
        s.mc.answer k = none ∧ mcVerb l ≠ 0 ∧ (impl = .memBack → l.validBit = c.validBit) ∧
        McApi.decode (byteOf c) = some a ∧
        McApi.withoutValid l = McApi.withoutValid (S.serve s.server a).2 ∧
        t = s.afterRespond impl S k c.validBit a l
    | .poll => ∃ n, s.mc.phase = .polling n ∧ t = s.afterPoll n

/-! ## The command register -/

/-- With an aligned shadow a call starts from zeros. -/
theorem McHost.lineAt_filled {s : McHost} (h : s.swp.sys.cena % 64 = 0) (r : McRequest) :
    lineAt (s.filled r) s.cmd = r.fill fun _ => 0 := by
  have hcmd : s.cmd % 64 = 0 := (McHost.cmd_mod s).trans h
  refine line_ext fun k hk => ?_
  rw [McRequest.fill, byteOf_lineAt _ _ hk, byteOf_lineAt _ _ hk, filled, mcStart_shadow]
  refine Bytes.storeFields_congr r.fields fun _ => ?_
  rw [mcStart_zero hcmd hk]
  simp [byteOf, getByte]

namespace McState

variable {impl : Impl} {s t : McState} {b : Bool} {loopvar : Option Nat}

/-- The hardware takes the line that was filled, with its verb and valid bit. -/
theorem Link.submitted (h : s.Link impl b) (cmd : Line) (cmdVerb : U8) :
    (s.afterSubmit impl loopvar cmd cmdVerb).submitted =
      s.submitted ++ [mcSetVerb cmd cmdVerb (vbit b)] := by
  obtain ⟨rest, hrest, haccs⟩ := qbmanSwpMcSubmit_eq h.mode h.bit cmd cmdVerb
  show s.submitted ++ [Region.line (Region.run _ _) _] = _
  rw [haccs, Region.run_append, hrest, run_qbmanCenaWriteComplete, line_memcpyWords]

/-- The fields of the system are as they were, whatever the step. -/
theorem step_sys {l : McLabel} (hstep : (mcSys impl loopvar).step s l t) :
    t.swp.sys = s.swp.sys := by
  cases l with
  | submit cmd cmdVerb =>
    obtain ⟨-, -, rfl⟩ := hstep
    rfl
  | respond k l =>
    obtain ⟨c, -, -, -, -, -, rfl⟩ := hstep
    rfl
  | poll =>
    obtain ⟨n, -, rfl⟩ := hstep
    have hsys := (McHost.qbmanSwpMcResult_frame s.swp s.cena).2
    cases hret : (qbmanSwpMcResult s.swp s.cena).ret with
    | some l =>
      rw [afterPoll_some hret]
      exact hsys
    | none =>
      rw [afterPoll_none hret]
      rcases n with _ | _ | n
      · exact hsys
      · exact hsys
      · exact hsys

/-- A poll changes neither the commands nor the responses. -/
theorem afterPoll_hardware (s : McState) (n : Option Nat) :
    (s.afterPoll n).submitted = s.submitted ∧ (s.afterPoll n).accepted = s.accepted ∧
      (s.afterPoll n).answer = s.answer := by
  cases hret : (qbmanSwpMcResult s.swp s.cena).ret with
  | some l =>
    rw [afterPoll_some hret]
    exact ⟨rfl, rfl, rfl⟩
  | none =>
    rw [afterPoll_none hret]
    rcases n with _ | _ | n
    · exact ⟨rfl, rfl, rfl⟩
    · exact ⟨rfl, rfl, rfl⟩
    · exact ⟨rfl, rfl, rfl⟩

/-- An accepted command without a response is the last accepted one. -/
theorem Link.accepted_le (h : s.Link impl b) {j k : Nat} (hj : s.accepted j = true)
    (hk : s.accepted k = true) (hans : s.answer k = none) : j ≤ k := by
  rcases h.state with hsync | ⟨i, hi⟩
  · exact absurd hans (hsync.answered k hk)
  · obtain rfl : k = i := by
      by_contra hne
      exact hi.answered k hk hne hans
    by_contra hlt
    have hlast := h.history.accepted_lt j hj
    have hres : s.submitted.length ≤ s.results.length + 1 := by
      by_cases hidle : s.phase = .idle
      · exact Nat.le_succ_of_le (Nat.le_of_eq (h.history.results hidle).symm)
      · exact Nat.le_of_eq (h.history.pending hidle).symm
    exact (h.history.taken j hlast).mp hj (j - 1) (by omega) (hi.gaveUp _ (by omega) (by omega))

end McState

namespace RpcState

variable {σ : Type} {S : Rpc.Server σ McApi Line} {σ₀ : σ} {impl : Impl} {s t : RpcState σ}

/-! ## What the server does -/

structure Inv (impl : Impl) (S : Rpc.Server σ McApi Line) (σ₀ : σ) (s : RpcState σ) : Prop where
  link : ∃ b, s.mc.Link impl b
  aligned : s.mc.swp.sys.cena % 64 = 0
  calls_length : s.calls.length = s.mc.submitted.length
  /-- The server can read every command. -/
  decode : ∀ (k : Nat) c, s.mc.submitted[k]? = some c →
    ∃ a, s.calls[k]? = some a ∧ McApi.decode (byteOf c) = some a.api.sent
  run : S.run σ₀ (s.served.map Served.call) = (s.server, s.served.map Served.reply)
  sorted : (s.served.map Served.index).Pairwise (· < ·)
  served : ∀ e ∈ s.served, s.mc.accepted e.index = true ∧ s.mc.answer e.index ≠ none ∧
    ∃ a, s.calls[e.index]? = some a ∧ e.call = a.api.sent
  answered : ∀ k l, s.mc.answer k = some l →
    ∃ e ∈ s.served, e.index = k ∧ McApi.withoutValid l = McApi.withoutValid e.reply

namespace Inv

theorem call (h : s.Inv impl S σ₀) {a : McApi} {r : McRequest} (hr : a.request = some r)
    (hidle : s.mc.phase = .idle) : (s.afterCall impl a r).Inv impl S σ₀ := by
  obtain ⟨b, hlink⟩ := h.link
  have hv := McApi.request_verb hr
  have hsub : (s.afterCall impl a r).mc.submitted =
      s.mc.submitted ++ [mcSetVerb (s.command r) r.verb (vbit b)] :=
    hlink.submitted (s.command r) r.verb
  have hlen := h.calls_length
  refine ⟨⟨b, hlink.submit hidle hv⟩, h.aligned, ?_, fun k c hk => ?_, h.run, h.sorted,
    fun e he => ?_, h.answered⟩
  · rw [hsub, List.length_append, afterCall, List.length_append, hlen]
    rfl
  · rw [hsub] at hk
    by_cases hlt : k < s.mc.submitted.length
    · rw [List.getElem?_append_left hlt] at hk
      obtain ⟨a', ha', hdec⟩ := h.decode k c hk
      exact ⟨a', (List.getElem?_append_left (hlen ▸ hlt)).trans ha', hdec⟩
    · have hle := (List.getElem?_eq_some_iff.mp hk).1
      rw [List.length_append, List.length_singleton] at hle
      obtain rfl : k = s.mc.submitted.length := by omega
      rw [List.getElem?_concat_length] at hk
      obtain rfl := Option.some.inj hk
      refine ⟨⟨a, s.mc.swp, s.start⟩, hlen ▸ List.getElem?_concat_length .., ?_⟩
      have himage : mcSetVerb (s.command r) r.verb (vbit b) = r.image (fun _ => 0) b := by
        rw [command, McHost.lineAt_filled (s := s.host) h.aligned, McRequest.image]
      rw [himage]
      exact McApi.decode_command hr b
  · obtain ⟨hacc, hans, a', ha', hcall⟩ := h.served e he
    have hlt := hlink.history.accepted_lt _ hacc
    refine ⟨?_, hans, a', (List.getElem?_append_left (hlen ▸ hlt)).trans ha', hcall⟩
    exact (Function.update_of_ne (Nat.ne_of_lt hlt) _ _).trans hacc

theorem respond (h : s.Inv impl S σ₀) {k : Nat} {c l : Line} {a : McApi}
    (hc : s.mc.submitted[k]? = some c) (hacc : s.mc.accepted k = true)
    (hans : s.mc.answer k = none) (hverb : mcVerb l ≠ 0)
    (hbit : impl = .memBack → l.validBit = c.validBit) (hdec : McApi.decode (byteOf c) = some a)
    (hreply : McApi.withoutValid l = McApi.withoutValid (S.serve s.server a).2) :
    (s.afterRespond impl S k c.validBit a l).Inv impl S σ₀ := by
  obtain ⟨b, hlink⟩ := h.link
  have hanswer : (s.afterRespond impl S k c.validBit a l).mc.answer =
      Function.update s.mc.answer k (some l) := rfl
  obtain ⟨a', ha', hdec'⟩ := h.decode k c hc
  obtain rfl : a = a'.api.sent := Option.some.inj (hdec.symm.trans hdec')
  -- Every executed command comes before this one.
  have hlt : ∀ e ∈ s.served, e.index < k := fun e he => by
    obtain ⟨hacc', hans', -⟩ := h.served e he
    have hle := hlink.accepted_le hacc' hacc hans
    have hne : e.index ≠ k := fun heq => hans' (heq ▸ hans)
    omega
  refine ⟨⟨b, hlink.respond hc hacc hans hverb hbit⟩, h.aligned, h.calls_length, h.decode, ?_, ?_,
    fun e he => ?_, fun j l' hj => ?_⟩
  · simp only [afterRespond, List.map_append, List.map_cons, List.map_nil]
    exact S.run_concat h.run _
  · rw [afterRespond, List.map_append, List.pairwise_append]
    refine ⟨h.sorted, List.pairwise_singleton .., fun i hi j hj => ?_⟩
    obtain ⟨e, he, rfl⟩ := List.mem_map.mp hi
    obtain rfl := List.mem_singleton.mp hj
    exact hlt e he
  · rcases List.mem_append.mp he with he | he
    · obtain ⟨hacc', hans', hcall⟩ := h.served e he
      refine ⟨hacc', ?_, hcall⟩
      rw [hanswer, Function.update_of_ne (Nat.ne_of_lt (hlt e he))]
      exact hans'
    · obtain rfl := List.mem_singleton.mp he
      refine ⟨hacc, ?_, a', ha', rfl⟩
      rw [hanswer, Function.update_self]
      exact Option.some_ne_none l
  · by_cases hjk : j = k
    · subst hjk
      rw [hanswer, Function.update_self] at hj
      obtain rfl := Option.some.inj hj
      exact ⟨_, List.mem_append_right _ (List.mem_singleton_self _), rfl, hreply⟩
    · rw [hanswer, Function.update_of_ne hjk] at hj
      obtain ⟨e, he, hindex⟩ := h.answered j l' hj
      exact ⟨e, List.mem_append_left _ he, hindex⟩

theorem poll (h : s.Inv impl S σ₀) {n : Option Nat} (hphase : s.mc.phase = .polling n) :
    (s.afterPoll n).Inv impl S σ₀ := by
  obtain ⟨b, hlink⟩ := h.link
  have hstep : (mcSys impl (some mcLoopvar)).step s.mc .poll (s.mc.afterPoll n) := ⟨n, hphase, rfl⟩
  have hsys : (s.mc.afterPoll n).swp.sys = s.mc.swp.sys := McState.step_sys hstep
  obtain ⟨hsub, hacc, hans⟩ := s.mc.afterPoll_hardware n
  refine ⟨hlink.poll hphase, ?_, ?_, ?_, h.run, h.sorted, ?_, ?_⟩
  · rw [afterPoll, hsys]
    exact h.aligned
  · rw [afterPoll, hsub]
    exact h.calls_length
  · rw [afterPoll, hsub]
    exact h.decode
  · rw [afterPoll, hacc, hans]
    exact h.served
  · rw [afterPoll, hans]
    exact h.answered

theorem init (h : (rpcSys impl S σ₀).init s) : s.Inv impl S σ₀ := by
  obtain ⟨hmc, haligned, hserver, hcalls, -, hserved⟩ := h
  have hlink := McState.link_init hmc
  obtain ⟨-, -, -, hsub, -, -, hans, -⟩ := hmc
  refine ⟨⟨true, hlink⟩, haligned, ?_, fun k c hk => ?_, ?_, ?_, fun e he => ?_, fun k l hk => ?_⟩
  · rw [hcalls, hsub]
    rfl
  · simp [hsub] at hk
  · rw [hserved, hserver]
    rfl
  · simp [hserved]
  · simp [hserved] at he
  · rw [hans] at hk
    cases hk

end Inv

theorem inv_inductive (impl : Impl) (S : Rpc.Server σ McApi Line) (σ₀ : σ) :
    (rpcSys impl S σ₀).Inductive (Inv impl S σ₀) where
  init _ := Inv.init
  step s l t h hstep := by
    cases l with
    | call a =>
      obtain ⟨r, hr, hidle, rfl⟩ := hstep
      exact h.call hr hidle
    | respond k l =>
      obtain ⟨c, a, hc, hacc, hans, hverb, hbit, hdec, hreply, rfl⟩ := hstep
      exact h.respond hc hacc hans hverb hbit hdec hreply
    | poll =>
      obtain ⟨n, hphase, rfl⟩ := hstep
      exact h.poll hphase

/-! ## What the callers get -/

/-- The polls of each call are recorded, and lead to its result. -/
structure Recorded (s : RpcState σ) : Prop where
  request : ∀ c ∈ s.calls, ∃ r, c.api.request = some r
  fresh : ∀ k, s.calls.length ≤ k → s.polls k = []
  running : ∀ n, s.mc.phase = .polling n → ∃ m c, n = some m ∧
    s.calls[s.mc.results.length]? = some c ∧ c.swp = s.mc.swp ∧
    (s.polls s.mc.results.length).length + m = mcLoopvar ∧
    ∀ x ∈ s.polls s.mc.results.length, (qbmanSwpMcResult c.swp x).ret = none
  finished : ∀ (k : Nat) r, s.mc.results[k]? = some r →
    ∃ c, s.calls[k]? = some c ∧ mcResponse c.swp (pollsOf (s.polls k)) = r

namespace Recorded

theorem call (h : s.Recorded) (hinv : s.Inv impl S σ₀) {a : McApi} {r : McRequest}
    (hr : a.request = some r) (hidle : s.mc.phase = .idle) : (s.afterCall impl a r).Recorded := by
  obtain ⟨b, hlink⟩ := hinv.link
  have hlen : s.mc.results.length = s.calls.length :=
    (hlink.history.results hidle).trans hinv.calls_length.symm
  have hcalls : (s.afterCall impl a r).calls = s.calls ++ [⟨a, s.mc.swp, s.start⟩] := rfl
  refine ⟨fun c hc => ?_, fun k hk => h.fresh k ?_, fun n hn => ?_, fun k r' hk => ?_⟩
  · rcases List.mem_append.mp hc with hc | hc
    · exact h.request c hc
    · obtain rfl := List.mem_singleton.mp hc
      exact ⟨r, hr⟩
  · rw [hcalls, List.length_append] at hk
    omega
  · obtain rfl := McPhase.polling.inj hn
    have hempty : s.polls s.mc.results.length = [] := h.fresh _ (Nat.le_of_eq hlen.symm)
    refine ⟨mcLoopvar, ⟨a, s.mc.swp, s.start⟩, rfl, ?_, rfl, ?_, fun x hx => ?_⟩
    · rw [hcalls, show (s.afterCall impl a r).mc.results.length = s.calls.length from hlen]
      exact List.getElem?_concat_length ..
    · rw [show (s.afterCall impl a r).polls (s.afterCall impl a r).mc.results.length = [] from
        hempty]
      exact Nat.zero_add _
    · rw [show (s.afterCall impl a r).polls (s.afterCall impl a r).mc.results.length = [] from
        hempty] at hx
      cases hx
  · obtain ⟨c, hc, hresponse⟩ := h.finished k r' hk
    refine ⟨c, ?_, hresponse⟩
    exact (List.getElem?_append_left (List.getElem?_eq_some_iff.mp hc).1).trans hc

/-- A poll is recorded for the call that runs, and for no other. -/
theorem fresh_poll (h : s.Recorded) {c : RpcCall} (hc : s.calls[s.mc.results.length]? = some c)
    (n : Option Nat) (k : Nat) (hk : s.calls.length ≤ k) : (s.afterPoll n).polls k = [] := by
  have hlt := (List.getElem?_eq_some_iff.mp hc).1
  exact (Function.update_of_ne (by omega) _ _).trans (h.fresh k hk)

theorem finished_poll (h : s.Recorded) (n : Option Nat) {k : Nat} {r : Option Line}
    (hk : s.mc.results[k]? = some r) : ∃ c, s.calls[k]? = some c ∧
      mcResponse c.swp (pollsOf ((s.afterPoll n).polls k)) = r := by
  have hlt := (List.getElem?_eq_some_iff.mp hk).1
  obtain ⟨c, hc, hresponse⟩ := h.finished k r hk
  have hpolls : (s.afterPoll n).polls k = s.polls k :=
    Function.update_of_ne (Nat.ne_of_lt hlt) _ _
  exact ⟨c, hc, by rw [hpolls, hresponse]⟩

/-- A poll that ends the call with `r`. -/
theorem finish (h : s.Recorded) {n : Option Nat} {r : Option Line} {c : RpcCall}
    (hidle : (s.mc.afterPoll n).phase = .idle)
    (hres : (s.mc.afterPoll n).results = s.mc.results ++ [r])
    (hc : s.calls[s.mc.results.length]? = some c)
    (hresponse : mcResponse c.swp (pollsOf (s.polls s.mc.results.length ++ [s.mc.cena])) = r) :
    (s.afterPoll n).Recorded := by
  refine ⟨h.request, h.fresh_poll hc n, fun n' hn' => ?_, fun k r' hk => ?_⟩
  · rw [afterPoll_mc, hidle] at hn'
    cases hn'
  · rw [afterPoll_mc, hres] at hk
    by_cases hlt : k < s.mc.results.length
    · rw [List.getElem?_append_left hlt] at hk
      exact h.finished_poll n hk
    · have hle := (List.getElem?_eq_some_iff.mp hk).1
      rw [List.length_append, List.length_singleton] at hle
      obtain rfl : k = s.mc.results.length := by omega
      rw [List.getElem?_concat_length] at hk
      obtain rfl := Option.some.inj hk
      have hpolls : (s.afterPoll n).polls s.mc.results.length = _ := Function.update_self ..
      exact ⟨c, hc, by rw [hpolls, hresponse]⟩

/-- A poll that finds nothing, and is not the last one. -/
theorem again (h : s.Recorded) {m : Nat} (hphase : s.mc.phase = .polling (some (m + 1)))
    (hret : (qbmanSwpMcResult s.mc.swp s.mc.cena).ret = none) :
    (s.afterPoll (some (m + 1))).Recorded := by
  obtain ⟨m', c, hm, hc, hswp, hcount, hnone⟩ := h.running _ hphase
  obtain rfl := Option.some.inj hm
  have hmc : (s.afterPoll (some (m + 1))).mc = { s.mc with phase := .polling (some m) } := by
    rw [afterPoll_mc, McState.afterPoll_none hret, qbmanSwpMcResult_swp_of_none hret]
  have hpolls : (s.afterPoll (some (m + 1))).polls s.mc.results.length =
      s.polls s.mc.results.length ++ [s.mc.cena] := Function.update_self ..
  refine ⟨h.request, h.fresh_poll hc _, fun n hn => ?_, fun k r hk => ?_⟩
  · rw [hmc] at hn ⊢
    obtain rfl := McPhase.polling.inj hn
    refine ⟨m, c, rfl, hc, hswp, ?_, fun x hx => ?_⟩
    · simp only [hpolls, List.length_append, List.length_singleton]
      omega
    · simp only [hpolls, List.mem_append, List.mem_singleton] at hx
      rcases hx with hx | rfl
      · exact hnone x hx
      · rw [hswp]
        exact hret
  · rw [hmc] at hk
    exact h.finished_poll _ hk

theorem poll (h : s.Recorded) {n : Option Nat} (hphase : s.mc.phase = .polling n) :
    (s.afterPoll n).Recorded := by
  obtain ⟨m, c, rfl, hc, hswp, hcount, hnone⟩ := h.running n hphase
  cases hret : (qbmanSwpMcResult s.mc.swp s.mc.cena).ret with
  | some l =>
    have hafter := McState.afterPoll_some (n := some m) hret
    exact h.finish (by rw [hafter]) (by rw [hafter]) hc
      (mcResponse_concat (by omega) hnone (by rw [hswp]; exact hret))
  | none =>
    cases m with
    | zero =>
      have hafter := McState.afterPoll_none (n := some 0) hret
      refine h.finish (by rw [hafter]) (by rw [hafter]) hc (mcResponse_of_none ?_ fun x hx => ?_)
      · rw [List.length_append, List.length_singleton, ← hcount]
      · rcases List.mem_append.mp hx with hx | hx
        · exact hnone x hx
        · obtain rfl := List.mem_singleton.mp hx
          rw [hswp]
          exact hret
    | succ m => exact h.again hphase hret

/-- A call whose polls found the response `l` returns the code that `l` has for its function. -/
theorem returned (h : s.Recorded) {k : Nat} {l : Line} (hk : s.mc.results[k]? = some (some l)) :
    ∃ c, s.calls[k]? = some c ∧ ∀ mem, ∃ o, c.run (s.polls k) mem = some o ∧
      o.ret = c.api.code l := by
  obtain ⟨c, hc, hresponse⟩ := h.finished k _ hk
  obtain ⟨r, hr⟩ := h.request c (List.mem_of_getElem? hc)
  refine ⟨c, hc, fun mem => ?_⟩
  have hcomplete : (qbmanSwpMcComplete c.swp (r.fill c.start) r.verb (pollsOf (s.polls k))).ret =
      some l := (qbmanSwpMcComplete_ret c.swp _ r.verb _).trans hresponse
  obtain ⟨o, ho, hret, -⟩ := McApi.run_of_response mem hr hcomplete
  exact ⟨o, ho, hret⟩

end Recorded

theorem rpcSys_inductive (impl : Impl) (S : Rpc.Server σ McApi Line) (σ₀ : σ) :
    (rpcSys impl S σ₀).Inductive fun s => s.Inv impl S σ₀ ∧ s.Recorded where
  init s hs := by
    obtain ⟨⟨-, -, hphase, -, -, -, -, hres⟩, -, -, hcalls, hpolls, -⟩ := id hs
    refine ⟨(inv_inductive impl S σ₀).init s hs, fun c hc => ?_, fun k _ => hpolls k,
      fun n hn => ?_, fun k r hk => ?_⟩
    · rw [hcalls] at hc
      cases hc
    · rw [hphase] at hn
      cases hn
    · rw [hres] at hk
      cases hk
  step s l t hs hstep := by
    obtain ⟨hinv, hrec⟩ := hs
    refine ⟨(inv_inductive impl S σ₀).step s l t hinv hstep, ?_⟩
    cases l with
    | call a =>
      obtain ⟨r, hr, hidle, rfl⟩ := hstep
      exact hrec.call hinv hr hidle
    | respond k l =>
      obtain ⟨c, a, -, -, -, -, -, -, -, rfl⟩ := hstep
      exact ⟨hrec.request, hrec.fresh, hrec.running, hrec.finished⟩
    | poll =>
      obtain ⟨n, hphase, rfl⟩ := hstep
      exact hrec.poll hphase

/-- What a call that got a response returns: the reply to the last call that was executed. -/
theorem Inv.collected (hinv : s.Inv impl S σ₀) (hrec : s.Recorded) {k : Nat} {l : Line}
    (hk : s.mc.results[k]? = some (some l)) : ∃ e ∈ s.served, e.index ≤ k ∧
      (∀ i, e.index ≤ i → i < k → s.mc.results[i]? = some none) ∧
      McApi.withoutValid l = McApi.withoutValid e.reply ∧
      ∃ c, s.calls[k]? = some c ∧ ∀ mem, ∃ o, c.run (s.polls k) mem = some o ∧
        o.ret = c.api.code e.reply := by
  obtain ⟨b, hlink⟩ := hinv.link
  obtain ⟨i, hi, -, hans, hnone⟩ := hlink.history.collected k l hk
  obtain ⟨e, he, rfl, hl⟩ := hinv.answered i l hans
  obtain ⟨c, hc, hrun⟩ := hrec.returned hk
  refine ⟨e, he, hi, hnone, hl, c, hc, fun mem => ?_⟩
  obtain ⟨o, ho, hret⟩ := hrun mem
  refine ⟨o, ho, hret.trans ?_⟩
  rw [← McApi.code_withoutValid c.api l, hl, McApi.code_withoutValid]

/-- When the hardware took every command, the server executed the calls up to some place. -/
theorem Inv.served_eq (h : s.Inv impl S σ₀)
    (hacc : ∀ k < s.mc.submitted.length, s.mc.accepted k = true) :
    s.served.map Served.index = List.range s.served.length ∧
      s.served.map Served.call = (s.calls.take s.served.length).map fun c => c.api.sent := by
  obtain ⟨b, hlink⟩ := h.link
  have hrange : s.served.map Served.index = List.range s.served.length := by
    have hclosed : ∀ x ∈ s.served.map Served.index, ∀ y < x, y ∈ s.served.map Served.index := by
      intro x hx y hy
      obtain ⟨e, he, rfl⟩ := List.mem_map.mp hx
      obtain ⟨hacc', hans, -⟩ := h.served e he
      have hlt := hlink.history.accepted_lt _ hacc'
      have hy' := hacc y (by omega)
      cases hans' : s.mc.answer y with
      | none =>
        have := hlink.accepted_le hacc' hy' hans'
        omega
      | some l =>
        obtain ⟨e', he', hindex, -⟩ := h.answered y l hans'
        exact List.mem_map.mpr ⟨e', he', hindex⟩
    have := Rpc.eq_range_of_closed h.sorted hclosed
    rwa [List.length_map] at this
  refine ⟨hrange, List.ext_getElem? fun i => ?_⟩
  rw [List.getElem?_map, List.getElem?_map]
  cases hi : s.served[i]? with
  | none =>
    have hge := List.getElem?_eq_none_iff.mp hi
    rw [List.getElem?_eq_none (by rw [List.length_take]; omega)]
    rfl
  | some e =>
    have hlt := (List.getElem?_eq_some_iff.mp hi).1
    have hindex := congrArg (·[i]?) hrange
    simp only [List.getElem?_map, hi, List.getElem?_range hlt, Option.map_some, Option.some.injEq]
      at hindex
    obtain ⟨-, -, a, ha, hcall⟩ := h.served e (List.mem_of_getElem? hi)
    rw [hindex] at ha
    rw [List.getElem?_take_of_lt hlt, ha, Option.map_some, Option.map_some, hcall]

end RpcState

/-! ## Calls of a direct portal -/

namespace RpcState

variable {σ : Type} {S : Rpc.Server σ McApi Line} {σ₀ : σ} {s : RpcState σ}

/-- The server answers a command while a call polls, which then returns the reply. -/
theorem respond_returns (h : (rpcSys .direct S σ₀).Reach s) {n : Option Nat}
    (hphase : s.mc.phase = .polling n) {k : Nat} {c : RpcCall} (hc : s.calls[k]? = some c)
    (hacc : s.mc.accepted k = true) (hans : s.mc.answer k = none)
    (hverb : mcVerb (S.serve s.server c.api.sent).2 ≠ 0) :
    ∃ t, (rpcSys .direct S σ₀).Reach t ∧ t.mc.phase = .idle ∧ t.calls = s.calls ∧
      t.mc.results = s.mc.results ++ [some (S.serve s.server c.api.sent).2] ∧
      t.server = (S.serve s.server c.api.sent).1 := by
  obtain ⟨hinv, -⟩ := (rpcSys_inductive .direct S σ₀).reach h
  obtain ⟨b, hlink⟩ := hinv.link
  have hlt : k < s.mc.submitted.length := hlink.history.accepted_lt k hacc
  have hcmd : s.mc.submitted[k]? = some s.mc.submitted[k] := List.getElem?_eq_getElem hlt
  obtain ⟨c', hc', hdec⟩ := hinv.decode k _ hcmd
  obtain rfl : c = c' := Option.some.inj (hc.symm.trans hc')
  have hbit : Impl.direct = .memBack →
      (S.serve s.server c.api.sent).2.validBit = s.mc.submitted[k].validBit :=
    fun hi => Impl.noConfusion hi
  have hreach := h.step (a := RpcLabel.respond k _)
    ⟨_, _, hcmd, hacc, hans, hverb, hbit, hdec, rfl, rfl⟩
  obtain ⟨hline, hready, -⟩ := hlink.respond_shows hcmd hacc hans hverb hbit
  have hlink' := hlink.respond hcmd hacc hans hverb hbit
  have hret := hlink'.ready_iff.1
  rw [if_pos hready, hline] at hret
  have hpoll := hreach.step (a := RpcLabel.poll) ⟨n, hphase, rfl⟩
  refine ⟨_, hpoll, ?_, rfl, ?_, rfl⟩
  · rw [afterPoll_mc, afterRespond_mc, McState.afterPoll_some hret]
  · rw [afterPoll_mc, afterRespond_mc, McState.afterPoll_some hret]
    rfl

/-- A call whose polls find nothing gives up. -/
theorem times_out {n : Nat} (h : (rpcSys .direct S σ₀).Reach s)
    (hphase : s.mc.phase = .polling (some n))
    (hret : (qbmanSwpMcResult s.mc.swp s.mc.cena).ret = none) :
    ∃ t, (rpcSys .direct S σ₀).Reach t ∧ t.calls = s.calls ∧ t.server = s.server ∧
      t.mc = { s.mc with phase := .idle, results := s.mc.results ++ [none] } := by
  induction n generalizing s with
  | zero =>
    refine ⟨_, h.step (a := RpcLabel.poll) ⟨some 0, hphase, rfl⟩, rfl, rfl, ?_⟩
    rw [afterPoll_mc, McState.afterPoll_none hret, qbmanSwpMcResult_swp_of_none hret]
  | succ n ih =>
    have hmc : (s.afterPoll (some (n + 1))).mc = { s.mc with phase := .polling (some n) } := by
      rw [afterPoll_mc, McState.afterPoll_none hret, qbmanSwpMcResult_swp_of_none hret]
    obtain ⟨t, ht, hcalls, hserver, htmc⟩ := ih
      (h.step (a := RpcLabel.poll) ⟨some (n + 1), hphase, rfl⟩) (by rw [hmc])
        (by rw [hmc]; exact hret)
    refine ⟨t, ht, hcalls, hserver, ?_⟩
    rw [htmc, hmc]

section Call

variable (h : (rpcSys .direct S σ₀).Reach s) (hidle : s.mc.phase = .idle) {a : McApi}
  {r : McRequest} (hr : a.request = some r)

include h hidle hr

theorem reach_call : (rpcSys .direct S σ₀).Reach (s.afterCall .direct a r) :=
  h.step (a := RpcLabel.call a) ⟨r, hr, hidle, rfl⟩

/-- A call after one that did not give up is executed, and returns its reply. -/
theorem call_returns (hlast : ∀ i, i + 1 = s.calls.length → s.mc.results[i]? ≠ some none)
    (hverb : mcVerb (S.serve s.server a.sent).2 ≠ 0) :
    ∃ t, (rpcSys .direct S σ₀).Reach t ∧ t.mc.phase = .idle ∧
      t.calls.map RpcCall.api = s.calls.map RpcCall.api ++ [a] ∧
      t.mc.results = s.mc.results ++ [some (S.serve s.server a.sent).2] ∧
      t.server = (S.serve s.server a.sent).1 := by
  obtain ⟨hinv, -⟩ := (rpcSys_inductive .direct S σ₀).reach h
  obtain ⟨b, hlink⟩ := hinv.link
  have hacc := (hlink.submit_taken (some mcLoopvar) hidle (s.command r)
    (McApi.request_verb hr)).mpr (hinv.calls_length ▸ hlast)
  have hans : s.mc.answer s.mc.submitted.length = none := by
    by_contra hne
    exact Nat.lt_irrefl _ (hlink.history.answer_lt hne)
  have hcall : (s.afterCall .direct a r).calls[s.mc.submitted.length]? =
      some ⟨a, s.mc.swp, s.start⟩ := hinv.calls_length ▸ List.getElem?_concat_length ..
  obtain ⟨t, ht, hphase, hcalls, hres, hserver⟩ :=
    respond_returns (reach_call h hidle hr) rfl hcall hacc hans hverb
  refine ⟨t, ht, hphase, ?_, hres, hserver⟩
  rw [hcalls, afterCall, List.map_append]
  rfl

/-- The submission clears the response register, so that a call that the server is too slow for
gives up. -/
theorem call_times_out : ∃ t, (rpcSys .direct S σ₀).Reach t ∧
    t.calls.map RpcCall.api = s.calls.map RpcCall.api ++ [a] ∧ t.server = s.server ∧
    t.mc.phase = .idle ∧ t.mc.results = s.mc.results ++ [none] ∧ t.mc.answer = s.mc.answer := by
  obtain ⟨hinv, -⟩ := (rpcSys_inductive .direct S σ₀).reach h
  obtain ⟨b, hlink⟩ := hinv.link
  have hv := McApi.request_verb hr
  have hclear := hlink.submit_clear (some mcLoopvar) (s.command r) hv
    fun hi => Impl.noConfusion hi
  have hlink' : McState.Link .direct b
      (s.mc.afterSubmit .direct (some mcLoopvar) (s.command r) r.verb) := hlink.submit hidle hv
  have hret := hlink'.ready_iff.1
  rw [hclear, if_neg Bool.false_ne_true] at hret
  obtain ⟨t, ht, hcalls, hserver, hmc⟩ := times_out (reach_call h hidle hr) rfl hret
  refine ⟨t, ht, ?_, hserver, by rw [hmc], by rw [hmc]; rfl, by rw [hmc]; rfl⟩
  rw [hcalls, afterCall, List.map_append]
  rfl

end Call

end RpcState

/-- A server that counts its calls, and puts the count into its replies. -/
def countServer : Rpc.Server Nat McApi Line :=
  ⟨fun n _ => (n + 1, fun i => if i = 0 then 0xf044 else BitVec.ofNat 32 n)⟩

theorem countServer_verb (n : Nat) (a : McApi) : mcVerb (countServer.serve n a).2 ≠ 0 := by
  have hword : (countServer.serve n a).2 0 = 0xf044 := by simp [countServer]
  rw [mcVerb, hword]
  decide

/-- A direct portal with its shadow at `0x2000`. -/
def rpcFresh : RpcState Nat :=
  ⟨.cleared (swpRev4100 0 0x1000), fun _ => 0, 0, [], fun _ => [], []⟩

theorem rpcFresh_reach : (rpcSys .direct countServer 0).Reach rpcFresh := by
  have hswp : (qbmanSwpInit {} (.rev4100 .vbRing 0) (.ok 0x1000 0 0)).ret =
      some (0x1000, swpRev4100 0 0x1000) := rfl
  have hcena : (swpRev4100 0 0x1000).sys.cena = 0x2000 :=
    (Option.some.inj (qbmanSwpInit_cena hswp)).symm
  exact .of_init ⟨⟨⟨{}, .rev4100 .vbRing 0, .ok 0x1000 0 0, 0x1000, rfl, rfl⟩, fun _ => rfl,
    rfl, rfl, rfl, fun _ => rfl, fun _ => rfl, rfl⟩, congrArg (· % 64) hcena, rfl, rfl,
    fun _ => rfl, rfl⟩

/-! ## The interface as a whole -/

section Results

variable {σ : Type} {impl : Impl} {S : Rpc.Server σ McApi Line} {σ₀ : σ} {s : RpcState σ}

/-- Whether or not calls give up: the server executes no call twice and none out of order. It
executes a call unless the call before gave up or it is still to come to it, and a call that gets a
response returns the code of the reply to the last executed call, which is its own unless the call
before gave up. -/
theorem rpcSys_safe (h : (rpcSys impl S σ₀).Reach s) :
    S.run σ₀ (s.served.map Served.call) = (s.server, s.served.map Served.reply) ∧
      (s.served.map Served.index).Pairwise (· < ·) ∧
      (∀ e ∈ s.served, (∃ c, s.calls[e.index]? = some c ∧ e.call = c.api.sent) ∧
        ∀ i, i + 1 = e.index → s.mc.results[i]? ≠ some none) ∧
      (∀ k < s.calls.length, (∀ i, i + 1 = k → s.mc.results[i]? ≠ some none) →
        (∃ e ∈ s.served, e.index = k) ∨
          ∀ j, k < j → j < s.calls.length → s.mc.results[j - 1]? = some none) ∧
      ∀ (k : Nat) l, s.mc.results[k]? = some (some l) → ∃ e ∈ s.served, e.index ≤ k ∧
        (e.index = k ↔ ∀ i, i + 1 = k → s.mc.results[i]? ≠ some none) ∧
        (∀ i, e.index ≤ i → i < k → s.mc.results[i]? = some none) ∧
        McApi.withoutValid l = McApi.withoutValid e.reply ∧
        ∃ c, s.calls[k]? = some c ∧ ∀ mem, ∃ o, c.run (s.polls k) mem = some o ∧
          o.ret = c.api.code e.reply := by
  obtain ⟨hinv, hrec⟩ := (RpcState.rpcSys_inductive impl S σ₀).reach h
  obtain ⟨b, hlink⟩ := hinv.link
  have hlen := hinv.calls_length
  have hfirst : ∀ e ∈ s.served, ∀ i, i + 1 = e.index → s.mc.results[i]? ≠ some none := by
    intro e he
    have hacc := (hinv.served e he).1
    exact (hlink.history.taken _ (hlink.history.accepted_lt _ hacc)).mp hacc
  refine ⟨hinv.run, hinv.sorted, fun e he => ⟨(hinv.served e he).2.2, hfirst e he⟩,
    fun k hk hprev => ?_, fun k l hk => ?_⟩
  · have hacc := (hlink.history.taken k (by omega)).mpr hprev
    cases hans : s.mc.answer k with
    | some l =>
      obtain ⟨e, he, hindex, -⟩ := hinv.answered k l hans
      exact .inl ⟨e, he, hindex⟩
    | none =>
      refine .inr fun j hkj hj => ?_
      by_contra hne
      -- Command `j` was taken, which only happens once that of `k` is answered.
      have hacc' := (hlink.history.taken j (by omega)).mpr fun i hi => by
        rwa [show i = j - 1 by omega]
      have := hlink.accepted_le hacc' hacc hans
      omega
  · obtain ⟨e, he, hle, hnone, hl, hrun⟩ := hinv.collected hrec hk
    refine ⟨e, he, hle, ⟨fun heq => heq ▸ hfirst e he, fun hprev => ?_⟩, hnone, hl, hrun⟩
    by_contra hne
    exact hprev (k - 1) (by omega) (hnone (k - 1) (by omega) (by omega))

/-- The first call gives up, the second returns the reply to it, and the third its own. -/
theorem rpcSys_safe_late : ∃ s, (rpcSys .direct countServer 0).Reach s ∧
    s.calls.map RpcCall.api = [.acquire 3 2, .fqQuery 5, .fqSchedule 9] ∧
    s.mc.results[0]? = some none ∧
    (∃ e ∈ s.served, e.index = 0 ∧ ∃ c, s.calls[1]? = some c ∧
      ∀ mem, ∃ o, c.run (s.polls 1) mem = some o ∧ o.ret = c.api.code e.reply) ∧
    ∃ e ∈ s.served, e.index = 2 ∧ ∃ c, s.calls[2]? = some c ∧
      ∀ mem, ∃ o, c.run (s.polls 2) mem = some o ∧ o.ret = c.api.code e.reply := by
  obtain ⟨s₁, h₁, hcalls₁, -, hidle₁, hres₁, hans₁⟩ :=
    RpcState.call_times_out rpcFresh_reach rfl (a := .acquire 3 2) rfl
  have h₂ := RpcState.reach_call h₁ hidle₁ (a := .fqQuery 5) rfl
  have hone : s₁.calls.map RpcCall.api = [.acquire 3 2] := hcalls₁
  have hlen₁ : s₁.calls.length = 1 := by simpa using congrArg List.length hone
  obtain ⟨⟨⟨b, hlink⟩, -, hlen₂, -⟩, -⟩ := (RpcState.rpcSys_inductive _ _ _).reach h₂
  have hcalls₂ : (s₁.afterCall .direct (.fqQuery 5) (qbmanFqQueryRequest 5)).calls.length = 2 :=
    List.length_append.trans (congrArg (· + 1) hlen₁)
  -- The second command is not taken, and the reply to the first one comes while its call polls.
  have hacc := (hlink.history.taken 0 (by omega)).mpr fun i hi => absurd hi (Nat.succ_ne_zero i)
  obtain ⟨s₃, h₃, hidle₃, hcalls₃, hres₃, -⟩ := RpcState.respond_returns h₂ rfl
    (List.getElem?_eq_getElem (by omega)) hacc (congrFun hans₁ 0) (countServer_verb _ _)
  have hres : s₃.mc.results = s₁.mc.results ++ [some _] := hres₃
  rw [hres₁] at hres
  obtain ⟨s, h, -, hcalls, hres', -⟩ := RpcState.call_returns h₃ hidle₃ (a := .fqSchedule 9) rfl
    (fun i hi => by
      rw [hcalls₃, hcalls₂] at hi
      obtain rfl : i = 1 := Nat.succ.inj hi
      rw [hres]
      exact fun hnone => Option.some_ne_none _ (Option.some.inj hnone)) (countServer_verb _ _)
  rw [hres] at hres'
  obtain ⟨-, -, hserved, -, hreturned⟩ := rpcSys_safe h
  have hzero : s.mc.results[0]? = some none := by
    rw [hres']
    rfl
  obtain ⟨e, he, hle, hown, -, -, hrun⟩ := hreturned 1 _ (by rw [hres']; rfl)
  obtain ⟨e', he', -, hown', -, -, hrun'⟩ := hreturned 2 _ (by rw [hres']; rfl)
  refine ⟨s, h, ?_, hzero, ⟨e, he, ?_, hrun⟩, e', he', hown'.mpr fun i hi => ?_, hrun'⟩
  · rw [hcalls, hcalls₃, RpcState.afterCall, List.map_append, hone]
    rfl
  · by_contra hne
    exact hown.mp (by omega) 0 rfl hzero
  · obtain rfl : i = 1 := Nat.succ.inj hi
    rw [hres']
    exact fun hnone => Option.some_ne_none _ (Option.some.inj hnone)

/-- As long as no call gives up, the server executes exactly the calls that were made, in order, up
to the one that is waiting, and the `k`-th call returns the code of the `k`-th reply. -/
theorem rpcSys_sequential (h : (rpcSys impl S σ₀).Reach s)
    (hret : ∀ k : Nat, s.mc.results[k]? ≠ some none) :
    ∃ n replies, S.run σ₀ ((s.calls.take n).map fun c => c.api.sent) = (s.server, replies) ∧
      s.mc.results.length ≤ n ∧ n ≤ s.calls.length ∧
      (s.mc.phase = .idle → s.mc.results.length = s.calls.length) ∧
      ∀ k < s.mc.results.length, ∃ c l reply, s.calls[k]? = some c ∧
        s.mc.results[k]? = some (some l) ∧ replies[k]? = some reply ∧
        McApi.withoutValid l = McApi.withoutValid reply ∧
        ∀ mem, ∃ o, c.run (s.polls k) mem = some o ∧ o.ret = c.api.code reply := by
  obtain ⟨hinv, hrec⟩ := (RpcState.rpcSys_inductive impl S σ₀).reach h
  obtain ⟨b, hlink⟩ := hinv.link
  obtain ⟨hrange, hcalls⟩ := hinv.served_eq fun k hk =>
    (hlink.history.taken k hk).mpr fun i _ => hret i
  have hserved : ∀ e ∈ s.served, s.served[e.index]? = some e := fun e he => by
    obtain ⟨i, hi⟩ := List.getElem?_of_mem he
    have hlt := (List.getElem?_eq_some_iff.mp hi).1
    have hindex := congrArg (·[i]?) hrange
    simp only [List.getElem?_map, hi, List.getElem?_range hlt, Option.map_some, Option.some.injEq]
      at hindex
    rw [hindex]
    exact hi
  have hcollected : ∀ k < s.mc.results.length, ∃ c l e, s.calls[k]? = some c ∧
      s.mc.results[k]? = some (some l) ∧ s.served[k]? = some e ∧
      McApi.withoutValid l = McApi.withoutValid e.reply ∧
      ∀ mem, ∃ o, c.run (s.polls k) mem = some o ∧ o.ret = c.api.code e.reply := fun k hk => by
    cases hres : s.mc.results[k] with
    | none => exact absurd (by rw [List.getElem?_eq_getElem hk, hres]) (hret k)
    | some l =>
      have hsome : s.mc.results[k]? = some (some l) := by rw [List.getElem?_eq_getElem hk, hres]
      obtain ⟨e, he, hle, hnone, hl, c, hc, hrun⟩ := hinv.collected hrec hsome
      obtain rfl : e.index = k := by
        by_contra hne
        exact hret (k - 1) (hnone (k - 1) (by omega) (by omega))
      exact ⟨c, l, e, hc, hsome, hserved e he, hl, hrun⟩
  refine ⟨s.served.length, s.served.map Served.reply, hcalls ▸ hinv.run, ?_, ?_, fun hidle => ?_,
    fun k hk => ?_⟩
  · by_contra hlt
    obtain ⟨c, l, e, -, -, he, -⟩ := hcollected s.served.length (by omega)
    rw [List.getElem?_eq_none (Nat.le_refl _)] at he
    cases he
  · have hlen := congrArg List.length hcalls
    rw [List.length_map, List.length_map, List.length_take] at hlen
    omega
  · rw [hlink.history.results hidle, hinv.calls_length]
  · obtain ⟨c, l, e, hc, hsome, he, hl⟩ := hcollected k hk
    exact ⟨c, l, e.reply, hc, hsome, by rw [List.getElem?_map, he]; rfl, hl⟩

/-- Three different calls, one of which the server reads as another. -/
theorem rpcSys_sequential_three : ∃ s, (rpcSys .direct countServer 0).Reach s ∧
    s.calls.map RpcCall.api = [.acquire 3 2, .fqSchedule 9, .cgrRejectStatistics 7 0] ∧
    s.mc.results.length = 3 ∧ ∃ n replies, 3 ≤ n ∧
      countServer.run 0 ((s.calls.take n).map fun c => c.api.sent) = (s.server, replies) ∧
      ∀ k < 3, ∃ c reply, s.calls[k]? = some c ∧ replies[k]? = some reply ∧
        ∀ mem, ∃ o, c.run (s.polls k) mem = some o ∧ o.ret = c.api.code reply := by
  have hsome : ∀ l : Line, some (some l) ≠ (some none : Option (Option Line)) := fun l hl =>
    Option.some_ne_none l (Option.some.inj hl)
  obtain ⟨s₁, h₁, hidle₁, hcalls₁, hres₁, -⟩ := RpcState.call_returns rpcFresh_reach rfl
    (a := .acquire 3 2) rfl (fun i hi => absurd hi (Nat.succ_ne_zero i)) (countServer_verb _ _)
  have hone : s₁.calls.map RpcCall.api = [.acquire 3 2] := hcalls₁
  have hlen₁ : s₁.calls.length = 1 := by simpa using congrArg List.length hone
  obtain ⟨s₂, h₂, hidle₂, hcalls₂, hres₂, -⟩ := RpcState.call_returns h₁ hidle₁
    (a := .fqSchedule 9) rfl (fun i hi => by
      obtain rfl : i = 0 := by omega
      rw [hres₁]
      exact hsome _) (countServer_verb _ _)
  rw [hone] at hcalls₂
  rw [hres₁] at hres₂
  have hlen₂ : s₂.calls.length = 2 := by simpa using congrArg List.length hcalls₂
  obtain ⟨s, h, -, hcalls, hres, -⟩ := RpcState.call_returns h₂ hidle₂
    (a := .cgrRejectStatistics 7 0) rfl (fun i hi => by
      obtain rfl : i = 1 := by omega
      rw [hres₂]
      exact hsome _) (countServer_verb _ _)
  rw [hcalls₂] at hcalls
  rw [hres₂] at hres
  have hlen : s.mc.results.length = 3 := by
    rw [hres]
    rfl
  obtain ⟨n, replies, hrun, hn, -, -, hall⟩ := rpcSys_sequential h fun k => by
    rw [hres]
    rcases k with _ | _ | _ | k
    · exact hsome _
    · exact hsome _
    · exact hsome _
    · exact fun hnone => Option.some_ne_none _ hnone.symm
  refine ⟨s, h, hcalls, hlen, n, replies, hlen ▸ hn, hrun, fun k hk => ?_⟩
  obtain ⟨c, l, reply, hc, -, hreply, -, hret⟩ := hall k (by omega)
  exact ⟨c, reply, hc, hreply, hret⟩

end Results

end Qbman
