import TenzorBus.Conc.Acts
import TenzorBus.Ring.System

/-!
# Where the ring is only read

The parts of the operations that change nothing, or nothing but the notes of the history.

* `scanOldest_reads`, `rescan_reads`, `chooseSlot_reads` : the passes over the slots
* `readValidated_notes`, `tryTake_notes` : `try_take`
-/

namespace TenzorBus

open Conc

variable {P : Platform} {n : Nat}

theorem Ring.activeMask_reads : (Ring.activeMask : RingM P n UInt64).Reads := by
  refine .foldlM (fun mask i => .bind Prog.reads_read fun state => ?_) _ _
  split <;> exact .ret _

theorem Ring.firstFree_reads : ∀ xs : List (Fin 64),
    (Ring.firstFree xs : RingM P n (Option (Fin 64))).Reads
  | [] => .ret _
  | i :: xs => by
    refine .bind Prog.reads_read fun state => ?_
    split
    · exact .ret _
    · exact firstFree_reads xs

namespace Producer

theorem selectSlot_reads (found : Option (Fin n) × Option (UInt64 × Fin n)) (i : Fin n) :
    (selectSlot found i : RingM P n _).Reads := by
  refine .bind Prog.reads_read fun state => ?_
  split
  · exact .ret _
  · refine .bind Prog.reads_read fun mask => ?_
    split
    · refine .bind Prog.reads_read fun seq => ?_
      split
      · split <;> exact .ret _
      · exact .ret _
    · exact .ret _
  · exact .ret _

theorem chooseSlot_reads : (chooseSlot : RingM P n _).Reads :=
  .bind (.foldlM selectSlot_reads _ _) fun _ => .ret _

theorem timestampOrNow_reads (timestampNs : Option UInt64) :
    (timestampOrNow timestampNs : RingM P n UInt64).Reads := by
  cases timestampNs with
  | none => exact Prog.reads_read
  | some ts => exact .ret _

end Producer

namespace Consumer

variable (c : Nat) (self : Consumer)

theorem scanOldest_reads : (scanOldest c self : RingM P n _).Reads := by
  refine .bind Prog.reads_read fun last => .foldlM (fun best i => ?_) _ _
  refine .bind Prog.reads_read fun state => ?_
  split
  · exact .ret _
  refine .bind Prog.reads_read fun mask => ?_
  split
  · exact .ret _
  refine .bind Prog.reads_read fun seq => ?_
  split
  · exact .ret _
  split
  · split <;> exact .ret _
  · exact .ret _

theorem rescan_reads : ∀ (k : Nat) (best : UInt64 × Fin n),
    (rescan c self k best : RingM P n _).Reads
  | 0, _ => .ret _
  | k + 1, best => by
    refine .bind (scanOldest_reads c self) fun found => ?_
    split
    · split
      · exact rescan_reads k _
      · exact .ret _
    · exact .ret _

/-- Nothing changes but what has been validated. -/
def Validates (c : Nat) (m m' : State P n × Ghost n) : Prop :=
  m' = m ∨ ∃ x payload, m' = (m.1, m.2.validate c x payload)

theorem readValidated_notes (cap : Nat) (slot : Fin n) (expected : UInt64) :
    (readValidated cap c self slot expected : RingM P n _).Acts (Validates c) := by
  have hread : ∀ {β : Type} {f : State P n → β}, (Prog.read f : RingM P n β).Acts (Validates c) :=
    .read fun _ => .inl rfl
  refine .bind hread fun state => ?_
  split
  · exact .ret _
  refine .bind hread fun seq => ?_
  split
  · exact .ret _
  refine .bind hread fun ndim => .bind hread fun dtype => .bind hread fun nbytes =>
    .bind hread fun stamp => .bind (.foldlM (fun dims d => ?_) _ _) fun dims =>
      .bind hread fun mask => .bind hread fun state => ?_
  · exact .bind hread fun _ => .bind hread fun _ => .ret _
  split
  · exact .ret _
  refine .bind hread fun seq => ?_
  split
  · exact .ret _
  split
  · exact .ret _
  refine .bind hread fun again => ?_
  split
  · exact .ret _
  split
  · exact .ret _
  split
  · exact .ret _
  · exact .bind (.record fun s g => .inr ⟨_, _, rfl⟩) fun _ => .ret _

/-- Only the history goes on. -/
def Notes (m m' : State P n × Ghost n) : Prop := m'.1 = m.1

theorem Notes.refl (m : State P n × Ghost n) : Notes m m := rfl

theorem tryTake_notes (cap : Nat) : (tryTake cap c self : RingM P n _).Acts Notes := by
  have hnote : ∀ {aux : State P n → Ghost n → Ghost n},
      (Prog.record aux : RingM P n Unit).Acts Notes := .record fun _ _ => rfl
  have hend : ∀ result, (do Prog.record fun _ g => g.endTry c result; return result :
      RingM P n (Option (TensorMeta n))).Acts Notes := fun _ => .bind hnote fun _ => .ret _
  refine .bind hnote fun _ => .bind (.of_reads (scanOldest_reads c self) Notes.refl) fun found => ?_
  cases found with
  | none => exact hend none
  | some first =>
    refine .bind (.of_reads (rescan_reads c self _ _) Notes.refl) fun best => .bind ?_ hend
    refine (readValidated_notes c self cap best.2 best.1).mono fun m m' h => ?_
    rcases h with rfl | ⟨x, payload, rfl⟩
    · exact Notes.refl m'
    · rfl

end Consumer

end TenzorBus
