import TenzorBus.Reference.Exec
import TenzorBus.Word.Update

/-!
# When the reference publishes all or nothing

Between `STATE_WRITING` and `STATE_COMMITTED` every value is packed into its field. Where one does
not fit, the exception leaves the slot in `STATE_WRITING`.

* `Fits` : the values of a publication fit their fields
* `exec_tryPublish` : what `publish` does inside the lock
* `publish_all_or_nothing` : when a call that does not publish leaves the ring as it was
-/

namespace TenzorBus.Reference

variable {n : Nat} {call : Call} {arr : NdArray} {code : UInt8} {slot : Fin n}
  {sequence : UInt64} {consumers : UInt32} {b : Buf n}

def Call.stamp (call : Call) : Int := call.timestampNs.getD call.timeNs

/-- The values that are packed fit, and the array is cast to bytes. -/
structure Fits (call : Call) (arr : NdArray) (consumers : UInt32) : Prop where
  stamp : Packs 64 call.stamp
  nbytes : Packs 64 arr.nbytes
  consumers : Packs 16 consumers.toNat
  shape : ∀ d : Fin maxNdim, Packs 32 ((arr.shape.map Int.ofNat).getD d 0)
  strides : ∀ d : Fin maxNdim, Packs 32 (arr.strides.getD d 0)
  casts : arr.casts = true

/-- The slot when everything has been written. -/
def filled (call : Call) (arr : NdArray) (code : UInt8) (sequence : UInt64) (consumers : UInt32)
    (s : Slot) : Slot :=
  { s with
    sequence := sequence
    header :=
      { timestampNs := UInt64.ofNat call.stamp.toNat, nbytes := UInt64.ofNat arr.nbytes,
        dtype := code, ndim := UInt8.ofNat arr.shape.length, flags := 0,
        shape := fun d => UInt32.ofNat ((arr.shape.map Int.ofNat).getD d 0).toNat,
        strides := fun d => UInt32.ofNat (arr.strides.getD d 0).toNat }
    readersRemaining := UInt16.ofNat consumers.toNat
    producerPid := call.pid
    payload := fun off => arr.data.getD off (s.payload off) }

/-! ## the header -/

/-- Words that are written one after the other to a field of eight words. -/
theorem foldl_dims {get : Slot → Fin maxNdim → UInt32}
    {put : (Fin maxNdim → UInt32) → Slot → Slot} (hget : ∀ x s, get (put x s) = x)
    (hput : ∀ x y s, put x (put y s) = put x s) (hself : ∀ s, put (get s) s = s)
    (word : Fin maxNdim → UInt32) (s : Slot) :
    (List.finRange maxNdim).foldl (fun s d => put (Function.update (get s) d (word d)) s) s =
      put word s := by
  have hfold : ∀ (l : List (Fin maxNdim)) (s : Slot),
      l.foldl (fun s d => put (Function.update (get s) d (word d)) s) s =
        put (l.foldl (fun f d => Function.update f d (word d)) (get s)) s := by
    intro l
    induction l with
    | nil =>
      intro s
      exact (hself s).symm
    | cons d l ih =>
      intro s
      rw [List.foldl_cons, ih, hget, hput, List.foldl_cons]
  rw [hfold, foldl_update_finRange]

/-- `write_shape` to a field of eight words. -/
theorem guarded_dims (get : Slot → Fin maxNdim → UInt32)
    (put : (Fin maxNdim → UInt32) → Slot → Slot) (hget : ∀ x s, get (put x s) = x)
    (hput : ∀ x y s, put x (put y s) = put x s) (hself : ∀ s, put (get s) s = s)
    (hstate : ∀ x s, (put x s).state = s.state) {values : List Int} :
    Guarded (writeShape slot values fun d v s => put (Function.update (get s) d v) s) slot
      (∀ d : Fin maxNdim, Packs 32 (values.getD d 0))
      (put fun d => UInt32.ofNat (values.getD d 0).toNat) := by
  have hzeros := Guarded.each (i := slot)
    (fun d : Fin maxNdim => .write fun s => hstate (Function.update (get s) d 0) s)
    (List.finRange maxNdim)
  have hwords := Guarded.each (i := slot)
    (fun d : Fin maxNdim => .writeU32 (v := values.getD d 0)
      (g := fun v s => put (Function.update (get s) d v) s) fun _ _ => hstate _ _)
    (List.finRange maxNdim)
  refine (hzeros.seq hwords).congr (by simp) ?_
  funext s
  rw [Function.comp, foldl_dims hget hput hself, foldl_dims hget hput hself, hput]

theorem guarded_shape {values : List Int} :
    Guarded (writeShape slot values fun d v s =>
        { s with header.shape := Function.update s.header.shape d v }) slot
      (∀ d : Fin maxNdim, Packs 32 (values.getD d 0)) fun s =>
        { s with header.shape := fun d => UInt32.ofNat (values.getD d 0).toNat } :=
  guarded_dims (fun s => s.header.shape) (fun x s => { s with header.shape := x })
    (fun _ _ => rfl) (fun _ _ _ => rfl) (fun _ => rfl) fun _ _ => rfl

theorem guarded_strides {values : List Int} :
    Guarded (writeShape slot values fun d v s =>
        { s with header.strides := Function.update s.header.strides d v }) slot
      (∀ d : Fin maxNdim, Packs 32 (values.getD d 0)) fun s =>
        { s with header.strides := fun d => UInt32.ofNat (values.getD d 0).toNat } :=
  guarded_dims (fun s => s.header.strides) (fun x s => { s with header.strides := x })
    (fun _ _ => rfl) (fun _ _ _ => rfl) (fun _ => rfl) fun _ _ => rfl

/-- What `fill` does once the slot is `STATE_WRITING`. -/
theorem exec_fill (call : Call) (arr : NdArray) (code : UInt8) (slot : Fin n)
    (sequence : UInt64) (consumers : UInt32) :
    ∃ rest : PyM n PUnit, Guarded rest slot (Fits call arr consumers)
        (filled call arr code sequence consumers) ∧
      ∀ b, exec (SharedTensorRing.fill call slot arr code sequence consumers) b =
        exec rest (b.setSlot slot fun s => { s with state := .writing }) := by
  have hsequence : Packs 64 sequence.toNat := .ofNat sequence.toNat_lt
  have hzero : Packs 32 0 := by decide
  refine ⟨_, ?_, fun b => exec_bind_ok rfl⟩
  refine Guarded.congr (.seq (.writeU64 fun _ _ => rfl) (.seq (.writeU64 fun _ _ => rfl)
    (.seq (.writeU64 fun _ _ => rfl) (.seq (.write fun _ => rfl) (.seq (.write fun _ => rfl)
      (.seq (.writeU16 fun _ _ => rfl) (.seq (.writeU32 fun _ _ => rfl) (.seq guarded_shape
        (.seq guarded_strides (.seq (.write fun _ => rfl)
          (.check (.write fun _ => rfl)))))))))))) ?_ ?_
  · constructor
    · rintro ⟨hstamp, hnbytes, hconsumers, hshape, hstrides, hcasts⟩
      exact ⟨hsequence, hstamp, hnbytes, trivial, trivial, hconsumers, hzero, hshape, hstrides,
        trivial, by rw [hcasts]; nofun, trivial⟩
    · rintro ⟨-, hstamp, hnbytes, -, -, hconsumers, -, hshape, hstrides, -, hcasts, -⟩
      exact ⟨hstamp, hnbytes, hconsumers, hshape, hstrides, Bool.eq_true_of_not_eq_false hcasts⟩
  · funext s
    have hflags : UInt32.ofNat (Int.toNat 0) = 0 := rfl
    simp only [filled, Call.stamp, Function.comp, Int.toNat_natCast, UInt64.ofNat_toNat, hflags]

theorem exec_fill_done (code : UInt8) (slot : Fin n) (sequence : UInt64)
    (hf : Fits call arr consumers) (b : Buf n) :
    exec (SharedTensorRing.fill call slot arr code sequence consumers) b =
      (.ok ⟨⟩, b.setSlot slot fun s =>
        filled call arr code sequence consumers { s with state := .writing }) := by
  obtain ⟨rest, hrest, hfill⟩ := exec_fill call arr code slot sequence consumers
  rw [hfill, hrest.done hf, Buf.setSlot_setSlot]
  rfl

theorem exec_fill_stuck (code : UInt8) (slot : Fin n) (sequence : UInt64)
    (hf : ¬Fits call arr consumers) (b : Buf n) :
    ∃ e b', exec (SharedTensorRing.fill call slot arr code sequence consumers) b =
      (.error e, b') ∧ (b'.slots slot).state = .writing := by
  obtain ⟨rest, hrest, hfill⟩ := exec_fill call arr code slot sequence consumers
  obtain ⟨e, f, he, hstate⟩ :=
    hrest.raised hf (b.setSlot slot fun s => { s with state := .writing })
  refine ⟨e, _, (hfill b).trans he, ?_⟩
  rw [Buf.setSlot_slots_self, hstate, Buf.setSlot_slots_self]

/-! ## inside the lock -/

open SharedTensorRing

/-- The slot that is selected is free, or nobody reads it any more. -/
theorem selectSlot_spec (h : selectSlot b = some slot) : (b.slots slot).state = .free ∨
    (b.slots slot).state = .committed ∧ (b.slots slot).readersRemaining = 0 := by
  unfold selectSlot at h
  split at h
  · next i l hfree =>
    cases h
    have hi := List.mem_filter.mp (hfree ▸ List.mem_cons_self : slot ∈ List.filter _ _)
    exact .inl (of_decide_eq_true hi.2)
  · obtain ⟨x, hx, rfl⟩ := Option.map_eq_some_iff.mp h
    have hmem := List.mem_of_mem_head? hx
    rw [reclaimable, List.mem_insertionSort] at hmem
    obtain ⟨i, -, hi⟩ := List.mem_filterMap.mp hmem
    obtain ⟨hc, hi⟩ := Option.ite_none_right_eq_some.mp hi
    cases hi
    exact .inr hc

theorem selectSlot_state (h : selectSlot b = some slot) : (b.slots slot).state ≠ .writing := by
  rcases selectSlot_spec h with h | ⟨h, -⟩
  · rw [h]
    nofun
  · rw [h]
    nofun

/-- The slot when it has been published. -/
def published (call : Call) (arr : NdArray) (code : UInt8) (sequence : UInt64)
    (consumers : UInt32) (s : Slot) : Slot :=
  { filled call arr code sequence consumers s with state := .committed }

/-- The two counters can go up. -/
def Buf.Counts (b : Buf n) : Prop :=
  b.nextSeq.toNat + 1 < 2 ^ 64 ∧ b.publishCount.toNat + 1 < 2 ^ 64

section

variable (hslot : selectSlot b = some slot)

include hslot

/-- A value that does not fit leaves the slot in `STATE_WRITING`. -/
theorem exec_tryPublish_stuck (code : UInt8) (hf : ¬Fits call arr b.consumers) :
    ∃ e b', exec (tryPublish call arr code) b = (.error e, b') ∧
      (b'.slots slot).state = .writing := by
  obtain ⟨e, b', he, hstate⟩ := exec_fill_stuck code slot b.nextSeq hf b
  refine ⟨e, b', ?_, hstate⟩
  unfold tryPublish
  rw [exec_bind_ok (exec_get b), hslot]
  exact exec_bind_error he

/-- The slot is committed; what remains are the counters. -/
theorem exec_tryPublish_filled (code : UInt8) (hf : Fits call arr b.consumers) :
    exec (tryPublish call arr code) b = exec (do
      writeGlobal64 (b.nextSeq.toNat + 1) fun v b => { b with nextSeq := v }
      writeGlobal64 (b.publishCount.toNat + 1) fun v b => { b with publishCount := v }
      return some (some { sequence := b.nextSeq.toNat, slotIndex := slot, nbytes := arr.nbytes,
                          readers := b.consumers.toNat }))
      (b.setSlot slot (published call arr code b.nextSeq b.consumers)) := by
  unfold tryPublish
  rw [exec_bind_ok (exec_get b), hslot]
  refine (exec_bind_ok (exec_fill_done code slot b.nextSeq hf b)).trans ?_
  rw [exec_bind_ok (exec_writeSlot _ _ _), Buf.setSlot_setSlot]
  rfl

theorem exec_tryPublish_done (code : UInt8) (hf : Fits call arr b.consumers) (hc : b.Counts) :
    exec (tryPublish call arr code) b =
      (.ok (some (some { sequence := b.nextSeq.toNat, slotIndex := slot, nbytes := arr.nbytes,
                         readers := b.consumers.toNat })),
        { b.setSlot slot (published call arr code b.nextSeq b.consumers) with
          nextSeq := UInt64.ofNat (b.nextSeq.toNat + 1)
          publishCount := UInt64.ofNat (b.publishCount.toNat + 1) }) := by
  have hnext : Packs 64 ((b.nextSeq.toNat : Int) + 1) := .ofNat hc.1
  have hcount : Packs 64 ((b.publishCount.toNat : Int) + 1) := .ofNat hc.2
  rw [exec_tryPublish_filled hslot code hf, exec_bind_ok (exec_writeGlobal64 hnext _),
    exec_bind_ok (exec_writeGlobal64 hcount _)]
  rfl

/-- Where a counter is at its end, the sequence counter has gone up, or begins again at 0. -/
theorem exec_tryPublish_uncounted (code : UInt8) (hf : Fits call arr b.consumers)
    (hc : ¬b.Counts) :
    ∃ e b', exec (tryPublish call arr code) b = (.error e, b') ∧ b'.nextSeq ≠ b.nextSeq := by
  rw [exec_tryPublish_filled hslot code hf]
  by_cases hnext : b.nextSeq.toNat + 1 < 2 ^ 64
  · have hpacks : Packs 64 ((b.nextSeq.toNat : Int) + 1) := .ofNat hnext
    have hcount : ¬Packs 64 ((b.publishCount.toNat : Int) + 1) :=
      fun h => hc ⟨hnext, by exact_mod_cast h.2⟩
    rw [exec_bind_ok (exec_writeGlobal64 hpacks _)]
    refine ⟨.struct, _, exec_bind_error (exec_writeGlobal64_error hcount _), ?_⟩
    show UInt64.ofNat (b.nextSeq.toNat + 1) ≠ b.nextSeq
    intro he
    have := congrArg UInt64.toNat he
    rw [UInt64.toNat_ofNat_of_lt' hnext] at this
    omega
  · have hpacks : ¬Packs 64 ((b.nextSeq.toNat : Int) + 1) :=
      fun h => hnext (by exact_mod_cast h.2)
    refine ⟨.struct, _, exec_bind_error (exec_writeGlobal64_error hpacks _), ?_⟩
    show 0 ≠ b.nextSeq
    intro he
    rw [← he] at hnext
    exact hnext (by decide)

end

/-! ## a call -/

/-- Nothing has changed but the count of drops, if drops are counted. -/
structure Untouched (call : Call) (b b' : Buf n) : Prop where
  same : b' = { b with dropCount := b'.dropCount }
  drop : b'.dropCount = b.dropCount ∨
    call.policy = "drop_newest" ∧ b'.dropCount.toNat = b.dropCount.toNat + 1

theorem Untouched.refl : Untouched call b b := ⟨rfl, .inl rfl⟩

section

variable (hslot : selectSlot b = none)

include hslot

/-- Nothing is published where there is no slot. -/
theorem exec_tryPublish_none (arr : NdArray) (code : UInt8)
    (hdrop : call.policy = "drop_newest" → b.dropCount.toNat + 1 < 2 ^ 64) :
    exec (tryPublish call arr code) b = (.ok none, b) ∨
      ∃ r b', exec (tryPublish call arr code) b = (r, b') ∧ Untouched call b b' ∧
        ((∃ e, r = .error e) ∨ r = .ok (some none)) := by
  unfold tryPublish
  rw [exec_bind_ok (exec_get b), hslot]
  by_cases hnewest : call.policy = "drop_newest"
  · right
    rw [if_pos hnewest]
    have hpacks : Packs 64 ((b.dropCount.toNat : Int) + 1) := .ofNat (hdrop hnewest)
    refine ⟨.ok (some none), { b with dropCount := UInt64.ofNat (b.dropCount.toNat + 1) }, ?_,
      ⟨rfl, .inr ⟨hnewest, UInt64.toNat_ofNat_of_lt' (hdrop hnewest)⟩⟩, .inr rfl⟩
    rw [exec_bind_ok (exec_writeGlobal64 hpacks _)]
    rfl
  · by_cases hblock : call.policy = "block"
    · left
      simp [hblock]
    · right
      refine ⟨.error (.value "policy must be 'block' or 'drop_newest'"), b, ?_, .refl,
        .inl ⟨_, rfl⟩⟩
      simp [hnewest, hblock]

/-- The count of drops is at its end, and begins again at 0. -/
theorem exec_tryPublish_undropped (arr : NdArray) (code : UInt8)
    (hnewest : call.policy = "drop_newest") (hcount : ¬b.dropCount.toNat + 1 < 2 ^ 64) :
    exec (tryPublish call arr code) b = (.error .struct, { b with dropCount := 0 }) := by
  have hpacks : ¬Packs 64 ((b.dropCount.toNat : Int) + 1) :=
    fun h => hcount (by exact_mod_cast h.2)
  unfold tryPublish
  rw [exec_bind_ok (exec_get b), hslot]
  simp only [if_pos hnewest]
  exact exec_bind_error (exec_writeGlobal64_error hpacks _)

/-- Whether or not it raises, nothing changes but the count of drops. -/
theorem exec_tryPublish_same (call : Call) (arr : NdArray) (code : UInt8) :
    (exec (tryPublish call arr code) b).2 =
      { b with dropCount := (exec (tryPublish call arr code) b).2.dropCount } := by
  by_cases hdrop : call.policy = "drop_newest" → b.dropCount.toNat + 1 < 2 ^ 64
  · rcases exec_tryPublish_none hslot arr code hdrop with h | ⟨r, b', h, hb, -⟩
    · rw [h]
    · rw [h]
      exact hb.same
  · obtain ⟨hnewest, hcount⟩ := Classical.not_imp.mp hdrop
    rw [exec_tryPublish_undropped hslot arr code hnewest hcount]

/-- Without a slot the loop goes round until the time is over, and changes nothing. -/
theorem exec_publishLoop_none (arr : NdArray) (code : UInt8)
    (hdrop : call.policy = "drop_newest" → b.dropCount.toNat + 1 < 2 ^ 64) (rounds : Nat) :
    ∃ r b', exec (publishLoop call arr code rounds) b = (r, b') ∧ Untouched call b b' ∧
      ((∃ e, r = .error e) ∨ r = .ok none) := by
  induction rounds with
  | zero =>
    unfold publishLoop
    rcases exec_tryPublish_none hslot arr code hdrop with
      h | ⟨r, b', h, hb, ⟨e, rfl⟩ | rfl⟩
    · exact ⟨_, _, exec_bind_ok h, .refl, .inl ⟨_, rfl⟩⟩
    · exact ⟨_, _, exec_bind_error h, hb, .inl ⟨_, rfl⟩⟩
    · exact ⟨_, _, exec_bind_ok h, hb, .inr rfl⟩
  | succ rounds ih =>
    unfold publishLoop
    rcases exec_tryPublish_none hslot arr code hdrop with
      h | ⟨r, b', h, hb, ⟨e, rfl⟩ | rfl⟩
    · obtain ⟨r, b', hr, hb, hres⟩ := ih
      exact ⟨r, b', (exec_bind_ok h).trans hr, hb, hres⟩
    · exact ⟨_, _, exec_bind_error h, hb, .inl ⟨_, rfl⟩⟩
    · exact ⟨_, _, exec_bind_ok h, hb, .inr rfl⟩

end

/-- The first round decides, if it has an answer or raises. -/
theorem exec_publishLoop_error {e : Raise} {b' : Buf n}
    (h : exec (tryPublish call arr code) b = (.error e, b')) (rounds : Nat) :
    exec (publishLoop call arr code rounds) b = (.error e, b') := by
  cases rounds with
  | zero => exact exec_bind_error h
  | succ rounds => exact exec_bind_error h

theorem exec_publishLoop_ok {r : Option (PublishResult n)} {b' : Buf n}
    (h : exec (tryPublish call arr code) b = (.ok (some r), b')) (rounds : Nat) :
    exec (publishLoop call arr code rounds) b = (.ok r, b') := by
  cases rounds with
  | zero => exact exec_bind_ok h
  | succ rounds => exact exec_bind_ok h

/-- If the call raises or gives nothing, the ring is as before. -/
def AllOrNothing (np : NumPy) (slotCapacity : Nat) (call : Call) (array : NdArray) (rounds : Nat)
    (b : Buf n) : Prop :=
  ∀ r b', exec (publish np slotCapacity call array rounds) b = (r, b') →
    (∀ result, r ≠ .ok (some result)) → Untouched call b b'

/-- If the call comes to fill a slot, every value fits its field and the counters can go up; if it
finds no slot and drops are counted, their count can. -/
def Whole (np : NumPy) (slotCapacity : Nat) (call : Call) (array : NdArray) (b : Buf n) : Prop :=
  ∀ code, array.shape.length ≤ maxNdim → dtypeToCode array.dtype = some code →
    (np.ascontiguousarray array).nbytes ≤ slotCapacity →
      (∀ slot, selectSlot b = some slot →
        Fits call (np.ascontiguousarray array) b.consumers ∧ b.Counts) ∧
      (selectSlot b = none → call.policy = "drop_newest" → b.dropCount.toNat + 1 < 2 ^ 64)

/-- A call that is refused changes nothing; any other comes to the loop. -/
theorem exec_publish (np : NumPy) (slotCapacity : Nat) (call : Call) (array : NdArray)
    (rounds : Nat) (b : Buf n) :
    (∃ e, exec (publish np slotCapacity call array rounds) b = (.error e, b) ∧
      (array.shape.length ≤ maxNdim → ∀ code, dtypeToCode array.dtype = some code →
        slotCapacity < (np.ascontiguousarray array).nbytes)) ∨
    ∃ code, array.shape.length ≤ maxNdim ∧ dtypeToCode array.dtype = some code ∧
      (np.ascontiguousarray array).nbytes ≤ slotCapacity ∧
        exec (publish np slotCapacity call array rounds) b =
          exec (publishLoop call (np.ascontiguousarray array) code rounds) b := by
  unfold publish
  by_cases hdim : maxNdim < array.shape.length
  · left
    rw [if_pos hdim]
    exact ⟨_, rfl, fun h => absurd h (by omega)⟩
  · rw [if_neg hdim]
    cases hcode : dtypeToCode array.dtype with
    | none =>
      left
      exact ⟨_, rfl, fun _ _ h => nomatch h⟩
    | some code =>
      by_cases hcap : slotCapacity < (np.ascontiguousarray array).nbytes
      · left
        simp only [if_pos hcap]
        exact ⟨_, rfl, fun _ _ _ => hcap⟩
      · right
        refine ⟨code, by omega, rfl, by omega, ?_⟩
        simp only [if_neg hcap]

/-- What holds where a slot is filled: every value fits, and the counters can go up. -/
theorem AllOrNothing.whole_some {np : NumPy} {slotCapacity : Nat} {array : NdArray} {rounds : Nat}
    (h : AllOrNothing np slotCapacity call array rounds b)
    (hexec : exec (publish np slotCapacity call array rounds) b =
      exec (publishLoop call arr code rounds) b) (hslot : selectSlot b = some slot) :
    Fits call arr b.consumers ∧ b.Counts := by
  have hsame : ∀ {e : Raise} {b' : Buf n}, exec (tryPublish call arr code) b = (.error e, b') →
      b' = { b with dropCount := b'.dropCount } := fun he =>
    (h _ _ (hexec.trans (exec_publishLoop_error he rounds)) nofun).same
  have hf : Fits call arr b.consumers := by
    by_contra hf
    -- the slot is left in `STATE_WRITING`
    obtain ⟨e, b', he, hw⟩ := exec_tryPublish_stuck hslot code hf
    rw [hsame he] at hw
    exact selectSlot_state hslot hw
  refine ⟨hf, ?_⟩
  by_contra hc
  obtain ⟨e, b', he, hne⟩ := exec_tryPublish_uncounted hslot code hf hc
  rw [hsame he] at hne
  exact hne rfl

/-- And where none is: the count of drops can. -/
theorem AllOrNothing.whole_none {np : NumPy} {slotCapacity : Nat} {array : NdArray} {rounds : Nat}
    (h : AllOrNothing np slotCapacity call array rounds b)
    (hexec : exec (publish np slotCapacity call array rounds) b =
      exec (publishLoop call arr code rounds) b) (hslot : selectSlot b = none)
    (hnewest : call.policy = "drop_newest") : b.dropCount.toNat + 1 < 2 ^ 64 := by
  by_contra hcount
  have he := exec_tryPublish_undropped hslot arr code hnewest hcount
  have hdrop := (h _ _ (hexec.trans (exec_publishLoop_error he rounds)) nofun).drop
  rcases hdrop with hsame | ⟨-, hgrown⟩
  · have hzero : (0 : UInt64) = b.dropCount := hsame
    rw [← hzero] at hcount
    exact hcount (by decide)
  · have hzero : (0 : UInt64).toNat = b.dropCount.toNat + 1 := hgrown
    exact absurd hzero (by simp)

/-- A call that raises or gives nothing leaves the ring as it was exactly if, where it comes to fill
a slot, every value fits and the counters can go up, and where it counts a drop, that counter
can. -/
theorem publish_all_or_nothing (np : NumPy) (slotCapacity : Nat) (call : Call) (array : NdArray)
    (rounds : Nat) (b : Buf n) :
    AllOrNothing np slotCapacity call array rounds b ↔ Whole np slotCapacity call array b := by
  rcases exec_publish np slotCapacity call array rounds b with
    ⟨e, hexec, hrefused⟩ | ⟨code, hdim, hcode, hcap, hexec⟩
  · constructor
    · intro _ code hdim hcode hcap
      exact absurd (hrefused hdim code hcode) (by omega)
    · intro _ r b' hr _
      rw [hexec] at hr
      cases hr
      exact .refl
  · constructor
    · intro hall _ _ _ _
      exact ⟨fun slot hslot => hall.whole_some hexec hslot, fun hslot hnewest =>
        hall.whole_none hexec hslot hnewest⟩
    · intro hwhole r b' hr hnothing
      obtain ⟨hsome, hnone⟩ := hwhole code hdim hcode hcap
      rw [hexec] at hr
      cases hslot : selectSlot b with
      | none =>
        obtain ⟨r₀, b₀, hloop, huntouched, -⟩ := exec_publishLoop_none hslot
          (np.ascontiguousarray array) code (hnone hslot) rounds
        rw [hloop] at hr
        cases hr
        exact huntouched
      | some slot =>
        obtain ⟨hf, hc⟩ := hsome slot hslot
        rw [exec_publishLoop_ok (exec_tryPublish_done hslot code hf hc)] at hr
        cases hr
        exact absurd rfl (hnothing _)

/-- The strides of an array in C order. -/
def cStrides (itemsize : Nat) : List Nat → List Int
  | [] => []
  | _ :: rest => (itemsize * rest.prod : Nat) :: cStrides itemsize rest

theorem cStrides_length (itemsize : Nat) (shape : List Nat) :
    (cStrides itemsize shape).length = shape.length := by
  induction shape with
  | nil => rfl
  | cons d rest ih => simp [cStrides, ih]

/-- NumPy with the strides of C order throughout, and a CPython that casts half floats. -/
def NumPy.plain : NumPy where
  ascontiguousarray a :=
    { a with
      shape := if a.shape = [] then [1] else a.shape
      strides := cStrides a.itemsize (if a.shape = [] then [1] else a.shape)
      casts := decide ((if a.shape = [] then [1] else a.shape).length = 1 ∨
        0 ∉ (if a.shape = [] then [1] else a.shape))
      strides_length := cStrides_length _ _
      data_length := by
        rw [a.data_length]
        split
        · next h => rw [h, List.prod_nil, List.prod_singleton]
        · rfl }
  dtype _ := rfl
  itemsize _ := rfl
  shape _ := rfl
  data _ := rfl
  casts _ _ h := decide_eq_true (.inr h)
  refuses _ h hl := decide_eq_false (not_or.mpr ⟨hl.ne', not_not_intro h⟩)

/-- One byte. -/
def NdArray.byte (b : UInt8) : NdArray :=
  { dtype := "uint8", itemsize := 1, shape := [1], strides := [1], data := [b], casts := true,
    strides_length := rfl, data_length := rfl }

/-- A call that blocks, with this capture time. -/
def Call.captured (timestampNs : Int) : Call :=
  { timestampNs := some timestampNs, timeNs := 0, pid := 7, policy := "block" }

/-- A capture time before the epoch leaves a slot in `STATE_WRITING`. -/
theorem publish_before_epoch :
    ¬AllOrNothing NumPy.plain 64 (.captured (-1)) (.byte 5) 0 (Buf.create 2) := by
  intro h
  have hsame := (h _ _ rfl nofun).same
  have hstate := congrArg (fun b => (Buf.slots b 0).state) hsame
  exact absurd hstate (by decide)

end TenzorBus.Reference
