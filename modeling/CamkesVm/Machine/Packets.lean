import Mathlib.Data.List.Infix

/-!
# Packets that end with a delimiter

A receiver that looks for a delimiter only behind the first entry of a packet cuts a stream into packets:
a first entry of any value, entries other than the delimiter, and a delimiter. Where a packet ends is
decided by the stream, so the packets at its beginning are unique.

Whether all packets of a stream fit in a buffer is asked of every place where a packet begins, for the
complete packets as for the one that is still incomplete.
-/

namespace CamkesVm.Machine

variable {α : Type*} {d : α} {bound : ℕ} {p q stream : List α}

/-- A complete packet. -/
def IsPacket (d : α) (p : List α) : Prop := ∃ first body, d ∉ body ∧ p = first :: (body ++ [d])

/-- The entries of one packet, complete or not: behind its first entry, only the last one may be the
delimiter. -/
def BeginsPacket (d : α) (p : List α) : Prop := d ∉ p.tail.dropLast

/-- Behind any packets of the stream, no packet gets longer than the bound. -/
def PacketsFit (d : α) (bound : ℕ) (stream : List α) : Prop :=
  ∀ (ps : List (List α)) (p : List α), (∀ q ∈ ps, IsPacket d q) → BeginsPacket d p →
    ps.flatten ++ p <+: stream → p.length ≤ bound

/-- A whole packet begins one. -/
theorem IsPacket.beginsPacket (h : IsPacket d p) : BeginsPacket d p := by
  obtain ⟨first, body, hbody, rfl⟩ := h
  rw [BeginsPacket, List.tail_cons, List.dropLast_concat]
  exact hbody

/-- The delimiter behind an incomplete packet completes it. -/
theorem isPacket_append (hne : p ≠ []) (hp : d ∉ p.tail) : IsPacket d (p ++ [d]) := by
  cases p with
  | nil => exact absurd rfl hne
  | cons first body => exact ⟨first, body, hp, rfl⟩

/-- An entry that does not complete an incomplete packet leaves it incomplete. -/
theorem not_mem_tail_append (hp : d ∉ p.tail) {c : α} (hc : c = d → p = []) : d ∉ (p ++ [c]).tail := by
  cases p with
  | nil => exact List.not_mem_nil
  | cons first body =>
    rw [List.cons_append, List.tail_cons, List.mem_append, List.mem_singleton]
    rintro (hmem | rfl)
    · exact hp hmem
    · cases hc rfl

/-- Any entry behind an incomplete packet still belongs to it. -/
theorem beginsPacket_append (hp : d ∉ p.tail) (c : α) : BeginsPacket d (p ++ [c]) := by
  cases p with
  | nil => exact List.not_mem_nil
  | cons first body =>
    rw [BeginsPacket, List.cons_append, List.tail_cons, List.dropLast_concat]
    exact hp

/-- Nothing that begins where a packet does goes on behind its end. -/
theorem IsPacket.length_le (hp : IsPacket d p) (hq : BeginsPacket d q) (hpre : p <+: stream)
    (hqpre : q <+: stream) : q.length ≤ p.length := by
  by_contra hlong
  obtain ⟨more, rfl⟩ := List.prefix_of_prefix_length_le hpre hqpre (Nat.le_of_not_le hlong)
  have hmore : more ≠ [] := by
    rintro rfl
    exact hlong (by rw [List.append_nil])
  obtain ⟨first, body, _, rfl⟩ := hp
  apply hq
  rw [List.cons_append, List.tail_cons, List.dropLast_append_of_ne_nil hmore]
  simp

/-- The packet at the beginning of a stream is unique. -/
theorem IsPacket.eq_of_isPrefix (hp : IsPacket d p) (hq : IsPacket d q) (hpre : p <+: stream)
    (hqpre : q <+: stream) : p = q := by
  have hle := hp.length_le hq.beginsPacket hpre hqpre
  have hge := hq.length_le hp.beginsPacket hqpre hpre
  exact (List.prefix_of_prefix_length_le hpre hqpre hge).eq_of_length (Nat.le_antisymm hge hle)

/-- A short stream has no long packet. -/
theorem packetsFit_of_length_le (h : stream.length ≤ bound) : PacketsFit d bound stream := by
  intro ps p _ _ hpre
  have hlen := hpre.length_le
  rw [List.length_append] at hlen
  omega

/-- A packet that begins the stream must fit. -/
theorem PacketsFit.length_le (h : PacketsFit d bound (p ++ stream)) (hp : BeginsPacket d p) :
    p.length ≤ bound :=
  h [] p (fun _ hq => absurd hq List.not_mem_nil) hp (List.prefix_append p stream)

/-- A complete packet that fits can be taken off. -/
theorem packetsFit_append_iff (hp : IsPacket d p) (hle : p.length ≤ bound) :
    PacketsFit d bound (p ++ stream) ↔ PacketsFit d bound stream := by
  constructor
  · intro h ps q hps hq hpre
    refine h (p :: ps) q (List.forall_mem_cons.mpr ⟨hp, hps⟩) hq ?_
    rw [List.flatten_cons, List.append_assoc]
    exact (List.prefix_append_right_inj p).mpr hpre
  · intro h ps q hps hq hpre
    cases ps with
    | nil =>
      exact (hp.length_le hq (List.prefix_append p stream) hpre).trans hle
    | cons p' ps =>
      obtain ⟨hp', hps⟩ := List.forall_mem_cons.mp hps
      rw [List.flatten_cons, List.append_assoc] at hpre
      obtain rfl := hp'.eq_of_isPrefix hp ((List.prefix_append p' _).trans hpre)
        (List.prefix_append p stream)
      exact h ps q hps hq ((List.prefix_append_right_inj p').mp hpre)

end CamkesVm.Machine
