import Mathlib.GroupTheory.Perm.Fin
import Pringles.Control.RunTest
import Pringles.Ring.Circulation

/-!
# From the configuration files to the ring

`setup_switches` writes a file for each switch of `switches_in_ring`, and `runTest` installs the
tables that its file asks for. The file of a switch names the port that leads to the switch before it
in the list, the first switch's that to the last one. So the tables lead around the ring against the
order of the list (`controlRing`, `tailRing`), and what has been proved of such rings holds of the
ring that the scripts start (`started_ring`).
-/

namespace Pringles.Control

open P4 (Net Tables Headers)
open P4.Ring (ControlRing TailRing Event Served Circuit circuit start controlVisits circulates_run)

variable {base : BaseConfig} {configs : List (String × Config)} {data file : Config}
  {acts : List Action} {p : Parameters} {n : Nat}

/-! ## What the files say -/

/-- The items of a file that the tables of the ring depend on. -/
structure RingItems (file : Config) (cntrlPort : Int) (ringSize : Nat) : Prop where
  cntrlPort : file "cntrl_port" = some (.int cntrlPort)
  inCntrl : file "in_cntrl" = some (.int 1)
  outCntrl : file "out_cntrl" = some (.int 1)
  sizeOfRing : file "size_of_ring" = some (.int ringSize)

/-- A file that has been completed has the items of the file. -/
theorem RingItems.mono {cntrlPort : Int} {ringSize : Nat} (h : RingItems file cntrlPort ringSize)
    (hext : ∀ key v, file key = some v → data key = some v) : RingItems data cntrlPort ringSize :=
  ⟨hext _ _ h.cntrlPort, hext _ _ h.inCntrl, hext _ _ h.outCntrl, hext _ _ h.sizeOfRing⟩

theorem generateSwitchConfig_ringItems {i : Nat} {cntrlPortNum loopbackPort : Int}
    {ringSize clientBaseRecvPort servRecvPort numClientThreads : Nat}
    (h : generateSwitchConfig base i cntrlPortNum ringSize clientBaseRecvPort servRecvPort
      loopbackPort numClientThreads = .ok file) : RingItems file cntrlPortNum ringSize := by
  unfold generateSwitchConfig at h
  obtain ⟨ports, -, h⟩ := bind_eq_ok h
  obtain ⟨storIp, -, h⟩ := bind_eq_ok h
  obtain ⟨cliIp, -, h⟩ := bind_eq_ok h
  obtain ⟨mac, -, h⟩ := bind_eq_ok h
  obtain ⟨ip, -, h⟩ := bind_eq_ok h
  obtain ⟨last, -, h⟩ := bind_eq_ok h
  split at h
  all_goals
    cases h
    constructor <;> rfl

/-- The port of a file leads to the switch before. -/
theorem setupSwitch_ringItems {it idx : Nat} {x : String × Config}
    (h : setupSwitch base it idx = .ok x) : ∃ ports before port,
      base.switches.cntrlPortSwitch idx = some ports ∧ beforeInRing base it = .ok before ∧
      ports[before]? = some port ∧
      RingItems x.2 port base.experimentParameters.switchesInRing.length := by
  unfold setupSwitch at h
  obtain ⟨ip, -, h⟩ := bind_eq_ok h
  obtain ⟨ports, hports, h⟩ := bind_eq_ok h
  obtain ⟨before, hbefore, h⟩ := bind_eq_ok h
  obtain ⟨port, hport, h⟩ := bind_eq_ok h
  obtain ⟨loopback, -, h⟩ := bind_eq_ok h
  obtain ⟨file, hfile, h⟩ := bind_eq_ok h
  cases h
  refine ⟨ports, before, port, ?_, hbefore, ?_, generateSwitchConfig_ringItems hfile⟩
  · unfold numbered at hports
    split at hports
    · cases hports
      assumption
    · cases hports
  · unfold index at hport
    split at hport
    · cases hport
      assumption
    · cases hport

/-! ## What `runTest` reads -/

theorem item_eq_ok {key : String} {v : Value} (h : data.item key = .ok v) : data key = some v := by
  unfold Config.item at h
  split at h
  · cases h
    assumption
  · cases h

theorem readParameters_ring (h : readParameters data = .ok p) :
    data "cntrl_port" = some p.cntrlPort ∧ data "in_cntrl" = some p.inCntrl ∧
      data "out_cntrl" = some p.outCntrl ∧ data "size_of_ring" = some p.sizeOfRing := by
  unfold readParameters at h
  iterate 36 obtain ⟨_, _, h⟩ := bind_eq_ok h
  cases h
  exact ⟨item_eq_ok ‹_›, item_eq_ok ‹_›, item_eq_ok ‹_›, item_eq_ok ‹_›⟩

/-- `runTest` asks for one entry of the control table and one of the tail table. -/
theorem mem_runTest_iff (h : runTest data = .ok acts) {cntrlPort : Int} {ringSize : Nat}
    (hitems : RingItems data cntrlPort ringSize) (a b c : Value) :
    (.setupCntrlTable a b c ∈ acts ↔ a = .int 1 ∧ b = .int 1 ∧ c = .int cntrlPort) ∧
      (.setupTailTable a b ∈ acts ↔ a = .int ringSize ∧ b = .int cntrlPort) := by
  obtain ⟨p, hp, h⟩ := bind_eq_ok h
  obtain ⟨hport, hin, hout, hsize⟩ := readParameters_ring hp
  have hport' : p.cntrlPort = .int cntrlPort := Option.some.inj (hport.symm.trans hitems.cntrlPort)
  have hin' : p.inCntrl = .int 1 := Option.some.inj (hin.symm.trans hitems.inCntrl)
  have hout' : p.outCntrl = .int 1 := Option.some.inj (hout.symm.trans hitems.outCntrl)
  have hsize' : p.sizeOfRing = .int ringSize :=
    Option.some.inj (hsize.symm.trans hitems.sizeOfRing)
  cases h
  simp [runSetup, setup, usePktgen, sendTestCntrlPacket, hport', hin', hout', hsize']

/-! ## The ring that is started -/

/-- The position before each position; the last one is before the first. -/
def before (n : Nat) : Equiv.Perm (Fin n) := (finRotate n).symm

theorem val_before {m : Nat} (k : Fin (m + 1)) :
    (before (m + 1) k : Nat) = if k.val = 0 then m else k.val - 1 := by
  unfold before
  have hk := coe_finRotate ((finRotate (m + 1)).symm k)
  rw [Equiv.apply_symm_apply] at hk
  split at hk
  · rename_i hlast
    rw [hlast, if_pos hk]
    rfl
  · rw [if_neg (by omega)]
    omega

theorem isCycleOn_before (n : Nat) : (before n).IsCycleOn Set.univ := by
  change (finRotate n)⁻¹.IsCycleOn Set.univ
  rw [Equiv.Perm.isCycleOn_inv]
  rcases Nat.lt_or_ge n 2 with hlt | hge
  · have : Subsingleton (Fin n) := Fin.subsingleton_iff_le_one.2 (by omega)
    exact Equiv.Perm.isCycleOn_of_subsingleton _ _
  · have hcycle := (isCycle_finRotate_of_le hge).isCycleOn
    have huniv : {x | finRotate n x ≠ x} = Set.univ := by
      refine Set.eq_univ_of_forall fun x => ?_
      have hx : x ∈ (finRotate n).support := by
        rw [support_finRotate_of_le hge]
        exact Finset.mem_univ x
      exact Equiv.Perm.mem_support.1 hx
    rwa [huniv] at hcycle

theorem beforeInRing_eq_ok {idx : Nat} (k : Fin n)
    (hlen : base.experimentParameters.switchesInRing.length = n)
    (h : beforeInRing base k = .ok idx) :
    base.experimentParameters.switchesInRing[(before n k).val]? = some idx := by
  cases n with
  | zero => exact k.elim0
  | succ m =>
    rw [val_before]
    unfold beforeInRing at h
    split at h
    · rename_i hk
      rw [if_pos hk]
      have hlast := lastInRing_eq_ok h
      rwa [List.getLast?_eq_getElem?, hlen, Nat.add_sub_cancel] at hlast
    · rename_i hk
      rw [if_neg hk]
      unfold index at h
      split at h
      · cases h
        assumption
      · cases h

/-- The tables hold the entries that the start-up asked for. -/
structure Installed (acts : List Action) (t : Tables) : Prop where
  cntrl : ∀ inCntrl outCntrl cntrlPort : Int,
    .setupCntrlTable (.int inCntrl) (.int outCntrl) (.int cntrlPort) ∈ acts →
    ∃ t', t = Tables.setupCntrlTable t' (.ofInt 16 inCntrl) (.ofInt 16 outCntrl)
      (.ofInt 9 cntrlPort)
  tail : ∀ (sizeOfRing : Nat) (cntrlPort : Int),
    .setupTailTable (.int sizeOfRing) (.int cntrlPort) ∈ acts →
    ∃ t', t = Tables.setupTailTable t' sizeOfRing (.ofInt 9 cntrlPort)

/-- Every switch has been started with its file. The files lack keys that `runTest` reads, so a file
may have been completed. -/
def Started (configs : List (String × Config)) (N : Net (Fin configs.length)) : Prop :=
  ∀ k, ∃ data acts, (∀ key v, (configs.get k).2 key = some v → data key = some v) ∧
    runTest data = .ok acts ∧ Installed acts (N.tables k)

/-- The port `cntrl_port_switch<a>[b]` of switch `a` is connected to switch `b`. -/
def Cabled (base : BaseConfig) (N : Net (Fin n)) : Prop :=
  ∀ (j k : Fin n) (a b : Nat) (ports : List Int) (port : Int),
    base.experimentParameters.switchesInRing[j.val]? = some a →
    base.experimentParameters.switchesInRing[k.val]? = some b →
    base.switches.cntrlPortSwitch a = some ports → ports[b]? = some port →
    N.link j (.ofInt 9 port) = some k

section
variable {N : Net (Fin configs.length)} (h : setupSwitches base = .ok configs)
  (hstart : Started configs N) (hcable : Cabled base N)

include h hstart hcable

/-- Every switch has its tables installed for the port to the switch before it. -/
theorem port_before (k : Fin configs.length) : ∃ port : Int,
    (∃ t, N.tables k = Tables.setupCntrlTable t 1 1 (.ofInt 9 port)) ∧
    (∃ t, N.tables k = Tables.setupTailTable t configs.length (.ofInt 9 port)) ∧
    N.link k (.ofInt 9 port) = some (before configs.length k) := by
  obtain ⟨hlen, hall⟩ := setupFrom_getElem h
  have hk : k.val < base.experimentParameters.switchesInRing.length := hlen ▸ k.isLt
  obtain ⟨x, hx, hset⟩ := hall k _ (List.getElem?_eq_getElem hk)
  obtain ⟨ports, before, port, hports, hbefore, hport, hitems⟩ := setupSwitch_ringItems hset
  rw [Nat.zero_add] at hbefore
  have hfile : configs.get k = x := Option.some.inj ((List.getElem?_eq_getElem k.isLt).symm.trans hx)
  obtain ⟨data, acts, hext, hrun, hinst⟩ := hstart k
  rw [hfile] at hext
  rw [← hlen] at hitems
  have hmem := mem_runTest_iff hrun (hitems.mono hext)
  exact ⟨port, hinst.cntrl _ _ _ ((hmem _ _ _).1.2 ⟨rfl, rfl, rfl⟩),
    hinst.tail _ _ ((hmem _ _ (.int 0)).2.2 ⟨rfl, rfl⟩),
    hcable k _ _ _ _ _ (List.getElem?_eq_getElem hk) (beforeInRing_eq_ok k hlen.symm hbefore)
      hports hport⟩

theorem controlRing : ControlRing N (before configs.length) 1 where
  cycle := isCycleOn_before _
  port k := by
    obtain ⟨port, ⟨t, ht⟩, -, hlink⟩ := port_before h hstart hcable k
    exact ⟨t, _, ht, hlink⟩

theorem tailRing (hsize : configs.length < 65536) :
    TailRing N (before configs.length) where
  size := by rwa [Fintype.card_fin]
  cycle := isCycleOn_before _
  port k := by
    obtain ⟨port, -, ⟨t, ht⟩, hlink⟩ := port_before h hstart hcable k
    exact ⟨t, _, by rw [Fintype.card_fin]; exact ht, hlink⟩

/-- **The scripts start a ring.** The tables that the switches install from their files lead the
control packet and the tail requests around the ring, from each switch to the one before it in
`switches_in_ring`. In every run a control packet visits the switches in this order. -/
theorem started_ring (hsize : configs.length < 65536) :
    ControlRing N (before configs.length) 1 ∧ TailRing N (before configs.length) ∧
      ∀ (hdr : Headers) (entry : Fin configs.length) (tr : List (Event _ × Served _))
        (C : Circuit (Fin configs.length)), hdr.cntrl.pktId = 1 →
        (circuit N).Run ⟨start hdr, some entry⟩ tr C →
        (∀ x ∈ tr, x.1.Arrives Headers.Enters) → C.ring.arrived < 2 ^ 32 →
        controlVisits tr =
          (List.range (controlVisits tr).length).map fun k => (before configs.length ^ k) entry := by
  have hring := controlRing h hstart hcable
  refine ⟨hring, tailRing h hstart hcable hsize, ?_⟩
  intro hdr entry tr C hid hr hA hlt
  exact (circulates_run hring hid hr hA hlt).visits

end

/-! ### Two switches -/

def sampleBase : BaseConfig where
  switches :=
    { switchIps := ["10.0.0.1", "10.0.0.2"]
      switchMacs := ["00:90:fb:70:65:71", "00:90:fb:70:65:72"]
      switchPorts := fun _ => some [172, 188]
      cntrlPortSwitch := fun i => if i = 0 then some [0, 140] else some [156, 0]
      loopbackPorts := [168, 168]
      cpuPort := 192
      listenPort := 30000
      dummyIpAddr := "10.229.49.9"
      macDstAddr := "00:90:fb:70:65:71"
      macSrcAddr := "00:25:90:53:e6:00"
      devNumber := 0
      cpuInterface := "enp5s0"
      externalInterface := "ma1"
      jumpMac := "00:25:90:53:e6:00"
      jumpIp := "169.229.48.63"
      ipv4TableEntries := [] }
  networkSetup := { storIps := ["10.0.0.3"], storRecvPort := "30003", cliIps := ["10.0.0.4"] }
  experimentParameters := { numClientThreads := 1, useStore := 1, switchesInRing := [0, 1] }

/-- Port zero leads nowhere else, the other ports to the other switch. -/
def sampleNet : Net (Fin 2) where
  program := .sequencingOnly
  tables k := Tables.setupTailTable (.setupCntrlTable {} 1 1 (if k.val = 0 then 140 else 156)) 2
    (if k.val = 0 then 140 else 156)
  link k port := if port.toNat = 0 then some k else some (before 2 k)

/-- A file can be completed, and the tables for its items are what `runTest` then asks for. -/
theorem exists_completed {cntrlPort : Int} {ringSize : Nat}
    (hitems : RingItems file cntrlPort ringSize) :
    ∃ data acts, (∀ key v, file key = some v → data key = some v) ∧ runTest data = .ok acts ∧
      Installed acts (.setupTailTable (.setupCntrlTable {} 1 1 (.ofInt 9 cntrlPort)) ringSize
        (.ofInt 9 cntrlPort)) := by
  let data : Config := fun key => (file key).or (sampleConfig 2 1 key)
  have hext : ∀ key v, file key = some v → data key = some v := by
    intro key v hv
    simp [data, hv]
  have hcomplete : data.Complete := by
    intro key hkey
    simp [data, sampleConfig_complete 2 1 key hkey]
  obtain ⟨acts, hrun⟩ := hcomplete.runTest
  have hmem := mem_runTest_iff hrun (hitems.mono hext)
  refine ⟨data, acts, hext, hrun, ?_, ?_⟩
  · intro a b c habc
    obtain ⟨ha, hb, hc⟩ := (hmem _ _ _).1.1 habc
    cases ha
    cases hb
    cases hc
    exact ⟨.setupTailTable {} ringSize (.ofInt 9 cntrlPort), rfl⟩
  · intro n c hnc
    obtain ⟨hn, hc⟩ := (hmem _ _ (.int 0)).2.1 hnc
    cases hc
    obtain rfl : n = ringSize := by simpa using hn
    exact ⟨_, rfl⟩

/-- The ring of two switches that the scripts start. -/
theorem started_ring_two : ∃ configs, ∃ N : Net (Fin configs.length),
    setupSwitches sampleBase = .ok configs ∧ configs.length = 2 ∧
      ControlRing N (before configs.length) 1 ∧ TailRing N (before configs.length) := by
  obtain ⟨x, y, h, hx, hy⟩ : ∃ x y, setupSwitches sampleBase = .ok [x, y] ∧
      RingItems x.2 140 2 ∧ RingItems y.2 156 2 :=
    ⟨_, _, rfl, ⟨rfl, rfl, rfl, rfl⟩, ⟨rfl, rfl, rfl, rfl⟩⟩
  have hstart : Started [x, y] sampleNet := by
    intro k
    match k with
    | 0 => exact exists_completed hx
    | 1 => exact exists_completed hy
  have hcable : Cabled sampleBase sampleNet := by
    intro j k a b ports port ha hb hports hport
    match j, k with
    | 0, 0 | 0, 1 | 1, 0 | 1, 1 =>
      cases ha
      cases hb
      cases hports
      cases hport
      rfl
  obtain ⟨hring, htail, -⟩ := started_ring h hstart hcable (by simp)
  exact ⟨[x, y], sampleNet, h, rfl, hring, htail⟩

end Pringles.Control
