import TenzorBus.Reference.Mapping

/-!
# What `publish` writes to the mapping

`publish` writes one word after the other and stops where a value does not fit, in place of which
it leaves zeros.

* `ByteM.Writes` : the writes of a computation, and when it makes all of them
* `ByteM.writes_fill` : those of `publish` up to the commit
-/

namespace TenzorBus.Reference

open Protocol

namespace ByteM

variable {α β : Type}

theorem exec_bind (c : ByteM α) (k : α → ByteM β) (m : Image) :
    exec (c >>= k) m = match exec c m with
      | (.ok a, m') => exec (k a) m'
      | (.error e, m') => (.error e, m') := by
  unfold exec
  rw [ExceptT.run_bind, StateT.run_bind]
  rcases (ExceptT.run c).run m with ⟨r | a, m'⟩
  · rfl
  · rfl

/-- Every write of `ys` goes where one of `xs` goes. -/
def Within (ys xs : List Write) : Prop := ∀ y ∈ ys, ∃ x ∈ xs, x.span = y.span

theorem Within.refl (xs : List Write) : Within xs xs := fun x hx => ⟨x, hx, rfl⟩

theorem Within.mono {xs xs' ys : List Write} (h : Within ys xs) (hsub : xs ⊆ xs') :
    Within ys xs' := fun y hy =>
  have ⟨x, hx, hspan⟩ := h y hy
  ⟨x, hsub hx, hspan⟩

theorem Within.append {xs ys zs : List Write} (h : Within ys xs) (h' : Within zs xs) :
    Within (ys ++ zs) xs := fun y hy => (List.mem_append.mp hy).elim (h y) (h' y)

/-- If `φ` holds, the computation makes the writes `xs`; otherwise it raises, having written only
where they go. -/
structure Writes (c : ByteM Unit) (φ : Prop) (xs : List Write) : Prop where
  done : φ → ∀ m, exec c m = (.ok ⟨⟩, m.writes xs)
  raised : ¬φ → ∀ m, ∃ e ys, exec c m = (.error e, m.writes ys) ∧ Within ys xs

namespace Writes

variable {c c' : ByteM Unit} {φ φ' : Prop} {xs ys : List Write} {m m' : Image}

theorem write (x : Write) : Writes (ByteM.write x) True [x] where
  done _ _ := rfl
  raised h := absurd trivial h

theorem packInto (off w : Nat) (v : Int) :
    Writes (ByteM.packInto off w v) (0 ≤ v ∧ v < 256 ^ w) [.word off w v.toNat] where
  done h m := by
    unfold ByteM.packInto
    rw [if_pos h]
    rfl
  raised h m := by
    unfold ByteM.packInto
    rw [if_neg h]
    refine ⟨.struct, [.word off w 0], rfl, fun y hy => ⟨_, List.mem_singleton_self _, ?_⟩⟩
    rw [List.mem_singleton.mp hy]
    simp [Write.span, Write.word]

theorem seq (h : Writes c φ xs) (h' : Writes c' φ' ys) :
    Writes (c >>= fun _ => c') (φ ∧ φ') (xs ++ ys) where
  done hφ m := by
    rw [exec_bind, h.done hφ.1 m]
    show exec c' _ = _
    rw [h'.done hφ.2, Image.writes_append]
  raised hφ m := by
    rw [exec_bind]
    by_cases hc : φ
    · rw [h.done hc m]
      obtain ⟨e, zs, hzs, hin⟩ := h'.raised (fun hφ' => hφ ⟨hc, hφ'⟩) (m.writes xs)
      refine ⟨e, xs ++ zs, ?_, ((Within.refl xs).mono (List.subset_append_left ..)).append
        (hin.mono (List.subset_append_right ..))⟩
      rw [Image.writes_append]
      exact hzs
    · obtain ⟨e, zs, hzs, hin⟩ := h.raised hc m
      rw [hzs]
      exact ⟨e, zs, rfl, hin.mono (List.subset_append_left ..)⟩

theorem congr (h : Writes c φ xs) (hφ : φ' ↔ φ) (hx : ys = xs) : Writes c φ' ys := by
  rw [propext hφ, hx]
  exact h

/-- A check in front. -/
theorem check {ψ : Prop} [Decidable ψ] {e : Raise} (h : Writes c φ xs) :
    Writes (if ψ then throw e else c) (¬ψ ∧ φ) xs where
  done hφ m := by
    rw [if_neg hφ.1]
    exact h.done hφ.2 m
  raised hφ m := by
    by_cases hψ : ψ
    · rw [if_pos hψ]
      exact ⟨e, [], rfl, nofun⟩
    · rw [if_neg hψ]
      exact h.raised (fun hc => hφ ⟨hψ, hc⟩) m

theorem each {ι : Type} {c : ι → ByteM Unit} {ψ : ι → Prop} {x : ι → Write}
    (h : ∀ i, Writes (c i) (ψ i) [x i]) (l : List ι) :
    Writes (l.forM c) (∀ i ∈ l, ψ i) (l.map x) := by
  induction l with
  | nil => exact ⟨fun _ _ => rfl, fun hn => absurd (fun _ hi => nomatch hi) hn⟩
  | cons i l ih =>
    refine ((h i).seq ih).congr ?_ rfl
    rw [List.forall_mem_cons]

/-- What is written over does not count. -/
theorem rewritten {zs : List Write} (h : Writes c φ (zs ++ xs)) (hz : Within zs xs) :
    Writes c φ xs where
  done hφ m := by rw [h.done hφ, Image.writes_append, Image.writes_over hz]
  raised hφ m := by
    obtain ⟨e, ys, hys, hin⟩ := h.raised hφ m
    refine ⟨e, ys, hys, fun y hy => ?_⟩
    obtain ⟨x, hx, hspan⟩ := hin y hy
    rcases List.mem_append.mp hx with hx | hx
    · obtain ⟨x', hx', hspan'⟩ := hz x hx
      exact ⟨x', hx', hspan'.trans hspan⟩
    · exact ⟨x, hx, hspan⟩

/-- A computation that has not raised has made all its writes. -/
theorem of_ok (h : Writes c φ xs) {u : Unit} (hm : exec c m = (.ok u, m')) :
    φ ∧ m' = m.writes xs := by
  by_cases hφ : φ
  · rw [h.done hφ] at hm
    exact ⟨hφ, (Prod.mk.inj hm).2.symm⟩
  · obtain ⟨e, ys, hys, -⟩ := h.raised hφ m
    rw [hys] at hm
    cases hm

/-- Whether it raises or not, it leaves alone what none of its writes touches. -/
theorem outside (h : Writes c φ xs) {a : Nat}
    (ha : ∀ x ∈ xs, a < x.off ∨ x.off + x.bytes.length ≤ a) : (exec c m).2 a = m a := by
  by_cases hφ : φ
  · rw [h.done hφ]
    exact Image.writes_outside ha
  · obtain ⟨e, ys, hys, hin⟩ := h.raised hφ m
    rw [hys]
    refine Image.writes_outside fun y hy => ?_
    obtain ⟨x, hx, hspan⟩ := hin y hy
    obtain ⟨hoff, hlen⟩ := Prod.mk.inj hspan
    rw [← hoff, ← hlen]
    exact ha x hx

end Writes

/-! ## `publish` -/

theorem writes_shape (off : Nat) (values : List Int) :
    Writes (writeShape off values)
      (∀ d ∈ List.range maxNdim, 0 ≤ values.getD d 0 ∧ values.getD d 0 < 256 ^ 4)
      ((List.range maxNdim).map fun d => .word (off + d * 4) 4 (values.getD d 0).toNat) := by
  have hzeros := Writes.each (ψ := fun _ => True)
    (fun d : Nat => Writes.write (.word (off + d * 4) 4 0)) (List.range maxNdim)
  have hwords := Writes.each (fun d : Nat => Writes.packInto (off + d * 4) 4 (values.getD d 0))
    (List.range maxNdim)
  refine ((hzeros.seq hwords).congr (by simp) rfl).rewritten fun z hz => ?_
  obtain ⟨d, hd, rfl⟩ := List.mem_map.mp hz
  exact ⟨_, List.mem_map_of_mem hd, by simp [Write.span, Write.word]⟩

/-- The words of a slot, behind `STATE_WRITING`, relative to the slot. -/
def fillWords (call : Call) (arr : NdArray) (code : UInt8) (sequence consumers : Nat) :
    List Write :=
  [.word sSequence 8 sequence, .word sTimestampNs 8 (call.timestampNs.getD call.timeNs).toNat,
    .word sNbytes 8 arr.nbytes, .mk sDtype [code], .mk sNdim [UInt8.ofNat arr.shape.length],
    .word sReaders 2 consumers, .word sFlags 4 0] ++
  (List.range maxNdim).map (fun d =>
    .word (sShape + d * 4) 4 ((arr.shape.map Int.ofNat).getD d 0).toNat) ++
  (List.range maxNdim).map (fun d => .word (sStrides + d * 4) 4 (arr.strides.getD d 0).toNat) ++
  [.word sProducerPid 4 call.pid.toNat]

/-- The values that are packed fit, and the array is cast to bytes. -/
structure Packable (call : Call) (arr : NdArray) (sequence consumers : Nat) : Prop where
  sequence : sequence < 256 ^ 8
  stamp : 0 ≤ call.timestampNs.getD call.timeNs ∧ call.timestampNs.getD call.timeNs < 256 ^ 8
  nbytes : arr.nbytes < 256 ^ 8
  consumers : consumers < 256 ^ 2
  shape : ∀ d < maxNdim, 0 ≤ (arr.shape.map Int.ofNat).getD d 0 ∧
    (arr.shape.map Int.ofNat).getD d 0 < 256 ^ 4
  strides : ∀ d < maxNdim, 0 ≤ arr.strides.getD d 0 ∧ arr.strides.getD d 0 < 256 ^ 4
  casts : arr.casts = true

theorem writes_fill (call : Call) (slot slotCapacity : Nat) (arr : NdArray) (code : UInt8)
    (sequence consumers : Nat) :
    Writes (fill call slot slotCapacity arr code sequence consumers)
      (Packable call arr sequence consumers)
      (.word (slotBase slot slotCapacity + sState) 4 stateWriting ::
        (fillWords call arr code sequence consumers).map
          (Write.shifted (slotBase slot slotCapacity)) ++
        [.mk (payloadBase slot slotCapacity) arr.data,
          .word (slotBase slot slotCapacity + sState) 4 stateCommitted]) := by
  unfold fill
  refine Writes.congr (.seq (.packInto _ 4 _) (.seq (.packInto _ 8 _) (.seq (.packInto _ 8 _)
    (.seq (.packInto _ 8 _) (.seq (.write _) (.seq (.write _) (.seq (.packInto _ 2 _)
      (.seq (.packInto _ 4 _) (.seq (writes_shape _ _) (.seq (writes_shape _ _)
        (.seq (.packInto _ 4 _) (.check (.seq (.write _) (.packInto _ 4 _))))))))))))))
    ?_ ?_
  · have hnat : ∀ v w : Nat, (0 ≤ (v : Int) ∧ (v : Int) < 256 ^ w) ↔ v < 256 ^ w := fun v w =>
      ⟨fun h => by exact_mod_cast h.2, fun h => ⟨Int.natCast_nonneg v, by exact_mod_cast h⟩⟩
    simp only [hnat, List.mem_range]
    constructor
    · rintro ⟨hsequence, hstamp, hnbytes, hconsumers, hshape, hstrides, hcasts⟩
      exact ⟨by decide, hsequence, hstamp, hnbytes, trivial, trivial, hconsumers, by decide, hshape,
        hstrides, call.pid.toNat_lt, by rw [hcasts]; nofun, trivial, by decide⟩
    · rintro ⟨-, hsequence, hstamp, hnbytes, -, -, hconsumers, -, hshape, hstrides, -, hcasts, -⟩
      exact ⟨hsequence, hstamp, hnbytes, hconsumers, hshape, hstrides,
        Bool.eq_true_of_not_eq_false hcasts⟩
  · simp only [fillWords, Write.shifted, Write.word, List.map_append, List.map_map, List.map_cons,
      List.map_nil, Function.comp_def, Int.toNat_natCast, Nat.add_assoc, List.cons_append,
      List.nil_append, List.append_assoc]
    rfl

end ByteM

end TenzorBus.Reference
