import CamkesVm.Pilot.Framing

/-!
# The link from the ground stations to the pilot

The ground stations seal MAVLink messages with the key and salt that `init_decrypt` gives the pilot,
each package travels in a frame, and the pilot feeds what arrives to `check_packet` byte by byte. With
the cipher of the component on both sides, all packages that arrive are decrypted, and no error is
counted, exactly when no package has the frame delimiter inside.
-/

namespace CamkesVm.Pilot

open CamkesVm.Machine CamkesVm.Commsec

/-- The constant `MAVLINK_LEN`. -/
def mavlinkLen : ℕ := 80

/-- The answers to delivered packages all report success. -/
theorem accepted_of_forall₂ {gcm : Gcm} {ctx : CommsecCtx gcm} {ι : Type} {deliveries : List (ι × Sent)}
    {restores : ι × Sent → CommsecRet × List Byte → Prop}
    (h : List.Forall₂ (fun d out => out.1 = .succeed ∧ restores d out) deliveries
      (outputs decStep ctx (deliveries.map fun d => d.2.pkg))) :
    Accepted ctx (deliveries.map fun d => d.2.pkg) := by
  intro answer hanswer
  obtain ⟨k, hk, rfl⟩ := List.getElem_of_mem hanswer
  exact (h.get (by rwa [h.length_eq]) hk).1

/-- Of the MAVLink messages that the ground stations sealed, those whose frames reach the pilot are all
decrypted without an error exactly when the delimiter breaks none of them. -/
theorem ground_packages_recovered_iff {ι : Type} [DecidableEq ι]
    {encPtr decPtr : ι → List Byte → List Byte → BitVec 32}
    {encPtr' decPtr' : List Byte → List Byte → BitVec 32} (ids : ι → BitVec 32)
    (hids : Function.Injective ids) (hrange : ∀ i, (ids i).toNat < maxBaseStations)
    (blank : ∀ i, CommsecCtx (codeGcm (encPtr i) (decPtr i))) (calls : ι → List SendCall)
    (hlen : ∀ i, ∀ call ∈ calls i, call.msgLen = mavlinkLen) (deliveries : List (ι × Sent))
    (harrives : Arrives (codeSent blank ids b2uSalt baseToUavKey (fun _ => u2bSalt)
      (fun _ => uavToBaseKey) calls) deliveries)
    (decryptState : CommsecCtx (codeGcm encPtr' decPtr')) (checkBuf : ℕ → Byte) (errCnt : BitVec 32) :
    Recovers ⟨⟨checkBuf, 0⟩, errCnt, initDecrypt decryptState⟩ (deliveries.map fun d => d.2.pkg) ↔
      Unbroken (deliveries.map fun d => d.2.pkg) := by
  rw [codeSent_eq] at harrives
  have hpkg : ∀ pkg ∈ deliveries.map fun d => d.2.pkg, pkg.length = 96 := by
    intro pkg hpkg
    obtain ⟨d, hd, rfl⟩ := List.mem_map.mp hpkg
    obtain ⟨call, hcall, hsize, -⟩ := length_sentPackages _ _ (harrives.mem d hd)
    rw [hsize, hlen d.1 call hcall]
    rfl
  have hpos : ∀ i, ∀ call ∈ calls i, 1 ≤ call.msgLen := by
    intro i call hcall
    rw [hlen i call hcall]
    decide
  have hpilot := matches_securePkgInit decryptState blankStd 0 b2uSalt baseToUavKey u2bSalt uavToBaseKey
  have haccepted := std_deliveries_accepted hids hrange 0 u2bSalt uavToBaseKey hpos harrives
  rw [← hpilot.outputs_decStep harrives.short] at haccepted
  exact recovers_iff rfl hpkg (accepted_of_forall₂ haccepted)

/-- Two messages of station 3, all of which arrive. -/
theorem station_packages_recovered_iff :
    let calls := [⟨fun _ => 0x4E, 0, 8, 80⟩, ⟨fun k => BitVec.ofNat 8 k, 0, 8, 80⟩]
    let sent := codeSent (fun _ => blankCode) (fun _ : Unit => 3) b2uSalt baseToUavKey (fun _ => u2bSalt)
      (fun _ => uavToBaseKey) (fun _ => calls) ()
    let pkgs := (sent.map fun s => ((), s)).map fun d => d.2.pkg
    Recovers ⟨⟨fun _ => 0, 0⟩, 0, initDecrypt blankCode⟩ pkgs ↔ Unbroken pkgs := by
  intro calls sent pkgs
  have hlen : ∀ call ∈ calls, call.msgLen = mavlinkLen := by simp [calls, mavlinkLen]
  have harrives : Arrives (fun _ : Unit => sent) (sent.map fun s => ((), s)) := by
    intro i
    simp
  exact ground_packages_recovered_iff (fun _ : Unit => 3) (fun _ _ _ => rfl) (fun _ => by decide)
    (fun _ => blankCode) (fun _ => calls) (fun _ => hlen) _ harrives blankCode (fun _ => 0) 0

end CamkesVm.Pilot
