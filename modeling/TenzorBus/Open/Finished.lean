import TenzorBus.Open.System
import TenzorBus.Ring.Script

/-!
# Attaching to a ring that is finished

* `Finished`, `Halfway` : how far `format` is
* `SeesFinished` : every attach comes after all stores of `format`
* `attach_sees_finished` : it does if no attach loads the slot capacity of a ring that is halfway
-/

namespace TenzorBus

open Conc

variable {P : Platform} {layout : Nat → RingLayout}

/-- `format` has made all its stores to object `o`. -/
def Finished (g : List (Entry layout)) (o : Nat) : Prop :=
  ∀ w ∈ formatStores (layout o).slotCount, Entry.stored o w ∈ g

/-- `format` has stored the slot capacity of object `o`, and has stores left to make. -/
def Halfway (g : List (Entry layout)) (o : Nat) : Prop :=
  .stored o .slotCapacity ∈ g ∧ ¬Finished g o

/-- Whenever `attach` has returned `Ok`, `format` had made all its stores to the object, and it
made none after. -/
def SeesFinished (g : List (Entry layout)) : Prop :=
  ∀ after i o before, g = after ++ .attached i o :: before →
    Finished before o ∧ ∀ w, .stored o w ∉ after

/-- No attach that has found a slot count loads the slot capacity of a ring that is halfway. -/
def Unhurried (m m' : HostMem P layout) : Prop :=
  ∀ i o slotCount, m'.2 = .sized i o slotCount :: m.2 → 2 ≤ slotCount → ¬Halfway m.2 o

theorem Finished.cons {g : List (Entry layout)} {o : Nat} (h : Finished g o) (e : Entry layout) :
    Finished (e :: g) o :=
  fun w hw => List.mem_cons_of_mem _ (h w hw)

/-- A history goes on as it should: who attaches does so when all is stored, and what is stored is
stored before anybody attaches. -/
theorem SeesFinished.cons {g : List (Entry layout)} {e : Entry layout} (h : SeesFinished g)
    (hattach : ∀ i o, e = .attached i o → Finished g o)
    (hstore : ∀ o w, e = .stored o w → ∀ i, .attached i o ∉ g) : SeesFinished (e :: g) := by
  intro after i o before hg
  rcases List.cons_eq_append_iff.mp hg with ⟨rfl, hg⟩ | ⟨after', rfl, rfl⟩
  · obtain ⟨rfl, rfl⟩ := List.cons.inj hg
    exact ⟨hattach i o rfl, fun _ hw => nomatch hw⟩
  · obtain ⟨hbefore, hafter⟩ := h after' i o before rfl
    refine ⟨hbefore, fun w hw => ?_⟩
    rcases List.mem_cons.mp hw with hw | hw
    · exact hstore o w hw.symm i (by simp)
    · exact hafter w hw

/-! ## the rules -/

/-- The marks of all objects. -/
def Host.marks (s : Host P layout) (o : Nat) : Marks (layout o).slotCount := (s.object o).marks

/-- What a step of a call may do. -/
inductive Opens (i : Nat) : HostMem P layout → HostMem P layout → Prop
  /-- It leaves the marks alone. -/
  | apart {s t : Host P layout} {g : List (Entry layout)} (ho : t.os = s.os)
      (hm : t.marks = s.marks)
      (hc : ∀ j ≠ i, t.created j = s.created j) (hi : s.created i = true → t.created i = true) :
      Opens i (s, g) (t, g)
  /-- It makes a store of `format` that has not been made. -/
  | store {s : Host P layout} {g : List (Entry layout)} (w : Store (layout i).slotCount)
      (hw : .stored i w ∉ g) (hc : s.created i = true) :
      Opens i (s, g) (s.setObject i fun o => w.apply (layout i) o, .stored i w :: g)
  /-- It loads a slot capacity. -/
  | size {s : Host P layout} {g : List (Entry layout)} (o : Nat) (slotCount : UInt32) :
      Opens i (s, g) (s, .sized i o slotCount :: g)
  /-- It returns a handle to an object that is finished. -/
  | attach {s : Host P layout} {g : List (Entry layout)} (o : Nat) (h : Option RingHandle)
      (ho : Finished g o) : Opens i (s, g) (s.setHandle i h, .attached i o :: g)

/-- What a step of an operation may do. -/
inductive Uses (o : Nat) : HostMem P layout → HostMem P layout → Prop
  | step {s : Host P layout} {g : List (Entry layout)} (t : State P (layout o).slotCount) :
      Uses o (s, g) ((Host.focus o).set s t, .used o :: g)

/-- What holds at any time: as long as its slot capacity has not been stored, an object has none;
nothing is stored in an object that has not been created; who has attached has attached to a
finished ring. -/
structure OpenInv (m : HostMem P layout) : Prop where
  unsized : ∀ o, .stored o .slotCapacity ∉ m.2 → (m.1.marks o).slotCapacity = 0
  fresh : ∀ o w, m.1.created o = false → .stored o w ∉ m.2
  finished : ∀ i o, .attached i o ∈ m.2 → Finished m.2 o
  sees : SeesFinished m.2

def openRules (P : Platform) (layout : Nat → RingLayout) : Rules (hostSystem P layout) where
  inv := OpenInv
  guar a := match a with
    | .opener i => Opens i
    | .user o _ => Uses o
  ok := Unhurried
  rest _ _ := True

/-! ## what a step keeps -/

/-- An entry that says nothing about stores and attaches. -/
def Entry.Plain (e : Entry layout) : Prop :=
  (∀ o w, e ≠ .stored o w) ∧ ∀ i o, e ≠ .attached i o

theorem OpenInv.plain {s t : Host P layout} {g : List (Entry layout)} (h : OpenInv (s, g))
    (hm : t.marks = s.marks) (hc : t.created = s.created) {e : Entry layout} (he : e.Plain) :
    OpenInv (t, e :: g) where
  unsized o ho := by
    rw [hm]
    exact h.unsized o fun hg => ho (List.mem_cons_of_mem _ hg)
  fresh o w ho hg := by
    rcases List.mem_cons.mp hg with hg | hg
    · exact he.1 o w hg.symm
    · exact h.fresh o w (hc ▸ ho) hg
  finished i o hg := by
    rcases List.mem_cons.mp hg with hg | hg
    · exact absurd hg.symm (he.2 i o)
    · exact (h.finished i o hg).cons e
  sees := h.sees.cons (fun i o ho => absurd ho (he.2 i o)) fun o w hw => absurd hw (he.1 o w)

theorem Host.marks_setObject {s : Host P layout} {i : Nat}
    {f : Object P (layout i).slotCount → Object P (layout i).slotCount} {o : Nat} (ho : o ≠ i) :
    (s.setObject i f).marks o = s.marks o := by
  simp [Host.marks, Host.setObject, ho]

theorem Host.marks_setObject_self {s : Host P layout} {i : Nat}
    {f : Object P (layout i).slotCount → Object P (layout i).slotCount} :
    (s.setObject i f).marks i = (f (s.object i)).marks := by
  simp [Host.marks, Host.setObject]

/-- A change to an object that leaves its marks alone. -/
theorem Host.marks_keep {s : Host P layout} {i : Nat}
    {f : Object P (layout i).slotCount → Object P (layout i).slotCount}
    (hf : ∀ o, (f o).marks = o.marks) : (s.setObject i f).marks = s.marks := by
  funext o
  by_cases ho : o = i
  · subst ho
    rw [Host.marks_setObject_self, hf]
    rfl
  · exact Host.marks_setObject ho

theorem OpenInv.opens {i : Nat} {m m' : HostMem P layout} (h : OpenInv m)
    (hs : Opens i m m') : OpenInv m' := by
  cases hs with
  | @apart s t g _ hm hc hi =>
    refine ⟨fun o ho => ?_, fun o w ho => h.fresh o w ?_, h.finished, h.sees⟩
    · show (t.marks o).slotCapacity = 0
      rw [hm]
      exact h.unsized o ho
    · by_cases hoi : o = i
      · subst hoi
        by_contra hne
        rw [show t.created o = true from hi (by simpa using hne)] at ho
        cases ho
      · rw [← hc o hoi]
        exact ho
  | @store s g w hw hc =>
    refine ⟨fun o ho => ?_, fun o w' ho hg => ?_, fun j o hg => ?_, ?_⟩
    · have hg : .stored o .slotCapacity ∉ g := fun hg => ho (List.mem_cons_of_mem _ hg)
      by_cases hoi : o = i
      · subst hoi
        rw [Host.marks_setObject_self]
        refine Store.apply_slotCapacity (fun hw' => ho ?_) (h.unsized o hg)
        rw [hw']
        exact List.mem_cons_self
      · rw [Host.marks_setObject hoi]
        exact h.unsized o hg
    · rcases List.mem_cons.mp hg with hg | hg
      · cases hg
        rw [show s.created i = false from ho] at hc
        cases hc
      · exact h.fresh o w' ho hg
    · rcases List.mem_cons.mp hg with hg | hg
      · cases hg
      · exact (h.finished j o hg).cons _
    · refine h.sees.cons nofun fun o w' he j hj => ?_
      cases he
      exact hw (h.finished j i hj w (mem_formatStores w))
  | size o slotCount => exact h.plain rfl rfl ⟨nofun, nofun⟩
  | @attach s g o x ho =>
    refine ⟨fun p hp => h.unsized p fun hg => hp (List.mem_cons_of_mem _ hg),
      fun p w hp hg => ?_, fun j p hg => ?_, ?_⟩
    · rcases List.mem_cons.mp hg with hg | hg
      · cases hg
      · exact h.fresh p w hp hg
    · rcases List.mem_cons.mp hg with hg | hg
      · cases hg
        exact ho.cons _
      · exact (h.finished j p hg).cons _
    · refine h.sees.cons (fun j p he => ?_) nofun
      cases he
      exact ho

theorem OpenInv.uses {o : Nat} {m m' : HostMem P layout} (h : OpenInv m)
    (hs : Uses o m m') : OpenInv m' := by
  cases hs with
  | @step s g t =>
    have hm := Host.marks_keep (s := s) (f := fun x => { x with state := t }) fun _ => rfl
    exact h.plain hm rfl ⟨nofun, nofun⟩

/-! ## the outlines of the calls -/

section

variable {i : Nat}

/-- What the others do to the object that call `i` creates: they neither create it nor format
it. -/
theorem openRules_rely {m m' : HostMem P layout}
    (h : (openRules P layout).Rely (.opener i) m m') :
    m'.1.created i = m.1.created i ∧ (∀ w, .stored i w ∈ m'.2 ↔ .stored i w ∈ m.2) ∧
      ∀ o, Finished m.2 o → Finished m'.2 o := by
  rcases h.step with ⟨a, ha, hs⟩ | ⟨os, spare, -, rfl⟩
  · cases a with
    | opener j =>
      have hij : i ≠ j := fun hij => ha (hij ▸ rfl)
      cases (show Opens j m m' from hs) with
      | apart _ hm hc hi => exact ⟨hc i hij, fun _ => Iff.rfl, fun _ hf => hf⟩
      | store w hw hc =>
        refine ⟨rfl, fun w' => ⟨fun hg => ?_, List.mem_cons_of_mem _⟩, fun o hf => hf.cons _⟩
        rcases List.mem_cons.mp hg with hg | hg
        · exact absurd (Entry.stored.inj hg).1 hij
        · exact hg
      | size o c =>
        exact ⟨rfl, fun w => by simp, fun o hf => hf.cons _⟩
      | attach o x ho => exact ⟨rfl, fun w => by simp, fun o hf => hf.cons _⟩
    | user o a =>
      cases (show Uses o m m' from hs) with
      | step t => exact ⟨rfl, fun w => by simp, fun o hf => hf.cons _⟩
  · exact ⟨rfl, fun _ => Iff.rfl, fun _ hf => hf⟩

/-- Call `i` has created its object, and `format` has made these stores to it. -/
def Formatting (i : Nat) (done : List (Store (layout i).slotCount))
    (m : HostMem P layout) : Prop :=
  m.1.created i = true ∧ ∀ w, .stored i w ∈ m.2 ↔ w ∈ done

theorem formatting_stable (done : List (Store (layout i).slotCount)) :
    (openRules P layout).Stable (.opener i) (Formatting i done) := by
  intro m m' h hm
  obtain ⟨hc, hw, -⟩ := openRules_rely h
  exact ⟨hc ▸ hm.1, fun w => (hw w).trans (hm.2 w)⟩

theorem created_stable (b : Bool) :
    (openRules P layout).Stable (.opener i) fun m : HostMem P layout => m.1.created i = b :=
  fun _ _ h hm => (openRules_rely h).1.trans hm

theorem finished_stable (o : Nat) :
    (openRules P layout).Stable (.opener i) fun m => Finished m.2 o :=
  fun _ _ h hm => (openRules_rely h).2.2 o hm

/-- A step that only looks. -/
theorem opens_idle (m : HostMem P layout) :
    (openRules P layout).guar (.opener i) m m :=
  Opens.apart rfl rfl (fun _ _ => rfl) id

theorem outline_read {α : Type} (f : Host P layout → α)
    {Φ : HostMem P layout → Prop} (hΦ : (openRules P layout).Stable (.opener i) Φ) :
    (openRules P layout).Outline (.opener i) (Prog.read f) Φ fun _ => Φ :=
  .read (fun _ => hΦ) (fun m _ => opens_idle m) fun _ _ _ h => h

theorem outline_unlink {Φ : HostMem P layout → Prop}
    (hΦ : (openRules P layout).Stable (.opener i) Φ)
    (h : ∀ s g, Φ (s, g) → Φ ({ s with named := none }, g)) :
    (openRules P layout).Outline (.opener i) Shm.unlink Φ fun _ => Φ :=
  .modify hΦ fun s g _ _ hs => ⟨.apart rfl rfl (fun _ _ => rfl) id, fun _ _ => h s g hs⟩

theorem outline_unlinkIf (b : Bool) {Φ : HostMem P layout → Prop}
    (hΦ : (openRules P layout).Stable (.opener i) Φ)
    (h : ∀ s g, Φ (s, g) → Φ ({ s with named := none }, g)) :
    (openRules P layout).Outline (.opener i) (Shm.unlinkIf b) Φ fun _ => Φ := by
  unfold Shm.unlinkIf
  split
  · exact outline_unlink hΦ h
  · exact .ret fun _ _ hs => hs

/-- `shm::create` leaves an object to which nothing has been stored. -/
theorem outline_shmCreate (length : UInt64) (force : Bool) :
    (openRules P layout).Outline (.opener i) (Shm.create i length force)
      (fun m => m.1.created i = false) fun r m => r = .ok () → Formatting i [] m := by
  have hstable : ∀ r : Except IoError Unit, (openRules P layout).Stable (.opener i)
      fun m => r = .ok () → Formatting i [] m := fun r => .imp_const fun _ => formatting_stable []
  unfold Shm.create
  refine .bind (outline_unlinkIf force (created_stable false) fun _ _ h => h) fun _ => ?_
  refine .bind (M := fun r m => r = .ok () → Formatting i [] m) ?_ fun opened => ?_
  · refine .atomicWith hstable fun s g hinv _ hs r t ht => ?_
    by_cases hn : s.named.isSome = true
    · rw [if_pos hn] at ht
      cases ht
      exact ⟨opens_idle _, fun _ _ hr => nomatch hr⟩
    · rw [if_neg hn] at ht
      by_cases hspare : s.spare = true
      · rw [if_pos hspare] at ht
        cases ht
        refine ⟨.apart rfl rfl (fun j hj => ?_) fun _ => ?_, fun _ _ _ => ⟨?_, fun w => ?_⟩⟩
        · simp [hj]
        · simp
        · simp
        · simpa using hinv.fresh i w hs
      · rw [if_neg hspare] at ht
        cases ht
        exact ⟨opens_idle _, fun _ _ hr => nomatch hr⟩
  match opened with
  | .error e => exact .ret fun _ _ _ hr => nomatch hr
  | .ok () =>
    refine .bind (M := fun _ => Formatting i []) ?_ fun sized => ?_
    · refine .atomicWith (fun _ => formatting_stable []) fun s g _ _ hs r t ht => ?_
      by_cases hspare : s.spare = true
      · rw [if_pos hspare] at ht
        cases ht
        exact ⟨.apart rfl (Host.marks_keep fun _ => rfl) (fun _ _ => rfl) id, fun _ _ => hs rfl⟩
      · rw [if_neg hspare] at ht
        cases ht
        exact ⟨opens_idle _, fun _ _ => hs rfl⟩
    by_cases hsized : sized = true
    · rw [if_pos hsized]
      exact (outline_read _ (formatting_stable [])).post fun _ _ _ h _ => h
    · rw [if_neg hsized]
      exact .bind (outline_unlink (formatting_stable []) fun _ _ h => h) fun _ =>
        .ret fun _ _ _ hr => nomatch hr

/-- `format` makes each of its stores once. -/
theorem outline_format :
    (openRules P layout).Outline (.opener i) (Ring.formatSteps i) (Formatting i [])
      fun _ => Formatting i (formatStores _) := by
  have hround : ∀ done w rest, (openRules P layout).Outline (.opener i) (Ring.formatStore i w)
      (fun m => done ++ w :: rest = formatStores _ ∧ Formatting i done m)
      fun _ m => (done ++ [w]) ++ rest = formatStores _ ∧ Formatting i (done ++ [w]) m := by
    intro done w rest
    refine .modifyWith (.and (.const _) (formatting_stable _)) fun s g _ _ ⟨hall, hc, hg⟩ => ?_
    have hnew : w ∉ done := by
      have hnodup := formatStores_nodup (layout i).slotCount
      rw [← hall] at hnodup
      exact fun hw => List.disjoint_of_nodup_append hnodup hw List.mem_cons_self
    refine ⟨.store w (fun hw => hnew ((hg w).mp hw)) hc, fun _ _ => ⟨by simp [hall], hc, ?_⟩⟩
    intro w'
    rw [List.mem_append, List.mem_singleton, ← show _ ↔ w' ∈ done from hg w', List.mem_cons]
    constructor
    · rintro (h | h)
      · exact .inr (eq_of_heq (Entry.stored.inj h).2)
      · exact .inl h
    · rintro (h | rfl)
      · exact .inr h
      · exact .inl rfl
  have hall := Rules.Outline.forM (fun done rest m =>
    done ++ rest = formatStores _ ∧ Formatting i done m) hround (formatStores _) []
  exact (hall.pre fun _ _ h => ⟨rfl, h⟩).post fun _ _ _ h => h.2

theorem outline_create (force : Bool) :
    (openRules P layout).Outline (.opener i) (Ring.create i force)
      (fun m => m.1.created i = false) fun _ _ => True := by
  unfold Ring.create
  refine .bind (outline_shmCreate _ force) fun r => ?_
  match r with
  | .error e => exact .ret fun _ _ _ => trivial
  | .ok () =>
    refine .bind (outline_format.pre fun _ _ h => h rfl) fun _ => ?_
    refine .bind (M := fun _ _ => True) ?_ fun _ => .ret fun _ _ _ => trivial
    exact .modify (.const True) fun s g _ _ _ =>
      ⟨.apart rfl rfl (fun _ _ => rfl) id, fun _ _ => trivial⟩

/-- A geometry that `attach` accepts is not the one of a new object. -/
theorem attach_geometry {slotCount : UInt32} {slotCapacity length : UInt64} {opened : Opened}
    (h : Opened.attach slotCount slotCapacity length = .ok opened) :
    2 ≤ slotCount ∧ slotCapacity ≠ 0 := by
  unfold Opened.attach at h
  split at h
  · cases h
  · next hgeo =>
    rw [not_or] at hgeo
    refine ⟨?_, ?_⟩
    · have := UInt64.le_iff_toNat_le.mp (UInt64.not_lt.mp hgeo.1)
      exact UInt32.le_iff_toNat_le.mpr (by simpa using this)
    · rintro rfl
      exact hgeo.2 (by decide)

/-- `attach` returns a handle to an object that is finished, unless it has been too quick. -/
theorem outline_attach :
    (openRules P layout).Outline (.opener i) (Ring.attach i) (fun _ => True) fun _ _ => True := by
  have hidle : ∀ {α : Type} (f : Host P layout → α), (openRules P layout).Outline (.opener i)
      (Prog.read f) (fun _ => True) fun _ _ => True := fun f => outline_read f (.const True)
  have hdone : ∀ {α : Type} (a : α), (openRules P layout).Outline (.opener i) (.ret a)
      (fun _ => True) fun _ _ => True := fun a => .ret fun _ _ _ => trivial
  have hmap : (openRules P layout).Outline (.opener i) Shm.attach (fun _ => True)
      fun _ _ => True := by
    unfold Shm.attach
    refine .bind (hidle _) fun named => ?_
    match named with
    | none => exact hdone _
    | some o =>
      refine .bind (hidle _) fun length => ?_
      by_cases hl : length = 0
      · rw [if_pos hl]
        exact hdone _
      · rw [if_neg hl]
        exact .bind (hidle _) fun _ => hdone _
  unfold Ring.attach
  refine .bind hmap fun r => ?_
  match r with
  | .error e => exact hdone _
  | .ok (o, length) =>
    have hmagic : (openRules P layout).Outline (.opener i) (Ring.loadMagic o) (fun _ => True)
        fun _ _ => True :=
      .foldlM (fun _ _ _ _ => True) (fun _ _ _ _ => .bind (hidle _) fun _ => hdone _) _ [] true
    refine .bind hmagic fun same => ?_
    by_cases hsame : (!same) = true
    · rw [if_pos hsame]
      exact hdone _
    rw [if_neg hsame]
    refine .bind (hidle _) fun version => ?_
    by_cases hv : version ≠ protocolVersion
    · rw [if_pos hv]
      exact hdone _
    rw [if_neg hv]
    refine .bind (hidle _) fun slotCount => ?_
    -- a slot capacity other than 0 has been stored, and then so has the rest
    refine .bind (M := fun slotCapacity m => 2 ≤ slotCount → slotCapacity ≠ 0 →
      Finished m.2 o) ?_ fun slotCapacity => ?_
    · refine .atomicWith (fun c => .imp_const fun _ => .imp_const fun _ => finished_stable o)
        fun s g hinv _ _ c t ht => ?_
      cases ht
      refine ⟨.size o slotCount, fun _ hok hcount hcap => ?_⟩
      have hstored : .stored o .slotCapacity ∈ g := by
        by_contra hne
        exact hcap (hinv.unsized o hne)
      have hfinished : Finished g o := by
        by_contra hne
        exact hok i o slotCount rfl hcount ⟨hstored, hne⟩
      exact hfinished.cons _
    match hopened : Opened.attach slotCount slotCapacity length with
    | .error m => exact (hdone _).pre fun _ _ _ => trivial
    | .ok opened =>
      refine .bind (M := fun _ _ => True) ?_ fun _ => hdone _
      obtain ⟨hcount, hcap⟩ := attach_geometry hopened
      exact .modifyWith (.const True) fun s g _ _ hs =>
        ⟨.attach o _ (hs hcount hcap), fun _ _ => trivial⟩

theorem outline_openOrCreate (force : Bool) :
    (openRules P layout).Outline (.opener i) (Ring.openOrCreate i force)
      (fun m => m.1.created i = false) fun _ _ => True := by
  unfold Ring.openOrCreate
  refine .bind (outline_create force) fun r => ?_
  match r with
  | .ok () => exact .ret fun _ _ _ => trivial
  | .error (.io .alreadyExists) => exact outline_attach
  | .error (.io .notFound) => exact .ret fun _ _ _ => trivial
  | .error (.io (.other m)) => exact .ret fun _ _ _ => trivial
  | .error (.badHeader m) => exact .ret fun _ _ _ => trivial

theorem outline_drop (h : RingHandle) :
    (openRules P layout).Outline (.opener i) (Ring.drop i h) (fun _ => True) fun _ _ => True :=
  .bind (outline_unlinkIf h.unlinkOnDrop (.const True) fun _ _ h => h) fun _ =>
    .modify (.const True) fun _ _ _ _ _ => ⟨.apart rfl rfl (fun _ _ => rfl) id, fun _ _ => trivial⟩

end

/-! ## all calls and operations -/

/-- Who lives has lived before. -/
theorem live_of_os {s t : Host P layout} (a : Party)
    (h : ∀ p, P.alive t.os p = true → P.alive s.os p = true)
    (hl : (hostSystem P layout).live a t) : (hostSystem P layout).live a s := by
  cases a with
  | opener i => trivial
  | user o a => exact h _ hl

theorem openRules_sound (os : P.Os) :
    (openRules P layout).Sound (· = HostConfig.init os) where
  initial := by
    rintro c rfl
    refine ⟨⟨fun _ _ => rfl, fun _ _ _ => nofun, nofun, ?_⟩, fun _ => ⟨rfl, trivial⟩⟩
    intro after i o before h
    cases after <;> cases h
  restStable _ := .const True
  starts a m p hp _ _ _ := by
    have hvoid : ∀ {α : Type} {i : Nat} {p : HostM P layout α} {Φ : HostMem P layout → Prop},
        (openRules P layout).Outline (.opener i) p Φ (fun _ _ => True) →
        (openRules P layout).Outline (.opener i) (p.bind fun _ => .ret ()) Φ fun _ _ => True :=
      fun h => .bind h fun _ => .ret fun _ _ h => h
    cases hp with
    | create i h hc force => exact ⟨_, created_stable false, hc, hvoid (outline_create force)⟩
    | attach i h => exact ⟨_, .const True, trivial, hvoid outline_attach⟩
    | openOrCreate i h hc force =>
      exact ⟨_, created_stable false, hc, hvoid (outline_openOrCreate force)⟩
    | drop i h hh => exact ⟨_, .const True, trivial, outline_drop h⟩
    | use o a i h hh hm hr p hp =>
      exact ⟨_, .const True, trivial, Rules.Outline.within (fun s g t => Uses.step t) p⟩
  guarInv a m m' hinv _ _ hg := by
    cases a with
    | opener i => exact hinv.opens hg
    | user o a => exact hinv.uses hg
  envInv m m' hinv _ he := by
    obtain ⟨os, spare, -, rfl⟩ := he
    exact ⟨hinv.unsized, hinv.fresh, hinv.finished, hinv.sees⟩
  guarLive a b m m' hg hl := by
    have hos : m'.1.os = m.1.os := by
      cases b with
      | opener i =>
        cases (show Opens i m m' from hg) with
        | apart ho _ _ _ => exact ho
        | _ => rfl
      | user o a =>
        cases (show Uses o m m' from hg)
        rfl
    exact live_of_os a (fun p => hos ▸ id) hl
  envLive a m m' he hl := by
    obtain ⟨os, spare, hos, rfl⟩ := he
    refine live_of_os a (fun p hp => ?_) hl
    rcases hos with rfl | hos
    · exact hp
    · exact P.alive_of_step _ _ p hos hp

/-! ## scripts -/

namespace HostScript

/-- Every object is a ring of two slots. -/
abbrev two : Nat → RingLayout := fun _ => .two

def create (i : Nat) : System.Move (hostSystem .single two) :=
  .start (.opener i)
    (fun s => if (s.handle i).isNone = true ∧ s.created i = false then
      some ((Ring.create i false).bind fun _ => .ret ()) else none)
    fun s q hq => by
      obtain ⟨h, hq⟩ := Option.ite_none_right_eq_some.mp hq
      cases hq
      exact .create i (by simpa using h.1) h.2 false

def attach (i : Nat) : System.Move (hostSystem .single two) :=
  .start (.opener i)
    (fun s => if (s.handle i).isNone = true then
      some ((Ring.attach i).bind fun _ => .ret ()) else none)
    fun s q hq => by
      obtain ⟨h, hq⟩ := Option.ite_none_right_eq_some.mp hq
      cases hq
      exact .attach i (by simpa using h)

instance (h : RingHandle) (o : Nat) : Decidable (h.Maps two o) :=
  inferInstanceAs (Decidable (_ ∧ _ ∧ _))

/-- Consumer `c` registers with object `o`, through the handle of call `i`. -/
def register (o i c : Nat) : System.Move (hostSystem .single two) :=
  .start (.user o (.consumer c))
    (fun s => (s.handle i).bind fun h =>
      if h.Maps two o ∧ (((Host.focus o).get s).consumer c).isNone = true then
        some ((void (Ring.consumer (.consumer c) c)).within (Host.focus o) (.used o :: ·))
      else none)
    fun s q hq => by
      obtain ⟨h, hh, hq⟩ := Option.bind_eq_some_iff.mp hq
      obtain ⟨hm, hq⟩ := Option.ite_none_right_eq_some.mp hq
      cases hq
      exact .use o _ i h hh hm.1 rfl _ (.register c (by simpa using hm.2))

/-- Everybody lives. -/
def live (_ : Party) (_ : Host .single two) : Bool := true

theorem live_of {a : Party} {s : Host .single two} (_ : live a s = true) :
    (hostSystem .single two).live a s := by
  cases a with
  | opener i => trivial
  | user o a => exact (rfl : Platform.single.alive s.os _ = true)

def isAttached (i o : Nat) : Entry two → Bool
  | .attached j p => i == j && o == p
  | _ => false

theorem eq_of_isAttached {i o : Nat} {e : Entry two} (h : isAttached i o e = true) :
    e = .attached i o := by
  cases e with
  | attached j p =>
    simp only [isAttached, Bool.and_eq_true, beq_iff_eq] at h
    rw [h.1, h.2]
  | _ => cases h

/-- The last entry is a store to object 0, after an attach of call 1. -/
def storedAfterAttach : List (Entry two) → Bool
  | .stored 0 _ :: g => g.any (isAttached 1 0)
  | _ => false

def isStored (o : Nat) (w : Store 2) : Entry two → Bool
  | .stored p v => o == p && decide (w = v)
  | _ => false

theorem eq_of_isStored {o : Nat} {w : Store 2} {e : Entry two} (h : isStored o w e = true) :
    e = .stored o w := by
  cases e with
  | stored p v =>
    simp only [isStored, Bool.and_eq_true, beq_iff_eq, decide_eq_true_eq] at h
    rw [← h.1, h.2]
  | _ => cases h

/-- When somebody loads a slot capacity, all stores have been made. -/
def unhurried (_ m' : HostMem .single two) : Bool :=
  match m'.2 with
  | .sized _ o _ :: g => (formatStores 2).all fun w => g.any (isStored o w)
  | _ => true

theorem unhurried_of {m m' : HostMem .single two} (h : unhurried m m' = true) :
    Unhurried m m' := by
  intro i o slotCount hm _ hhalf
  unfold unhurried at h
  rw [hm] at h
  refine hhalf.2 fun w hw => ?_
  obtain ⟨e, he, hew⟩ := List.any_eq_true.mp (List.all_eq_true.mp h w hw)
  exact eq_of_isStored hew ▸ he

/-- Where a script leads. -/
theorem reach (ok : HostMem .single two → HostMem .single two → Prop)
    (chk : HostMem .single two → HostMem .single two → Bool)
    (hchk : ∀ m m', chk m m' = true → ok m m')
    (moves : List (System.Move (hostSystem .single two))) (test : HostConfig .single two → Bool)
    (h : (System.play live chk moves (HostConfig.init ())).any test = true) :
    ∃ c, (hostSystem .single two).Reach ok (· = HostConfig.init ()) c ∧ test c = true :=
  System.Reach.play (fun _ _ => live_of) hchk moves (.init rfl) h

end HostScript

/-! ## when attaching is safe -/

/-- In every run in which no attach loads the slot capacity of a ring that is halfway, every attach
that has returned `Ok` has come after all stores of `format`, to the header and to all slots. -/
theorem attach_sees_finished (os : P.Os) {c : HostConfig P layout}
    (h : (hostSystem P layout).Reach Unhurried (· = HostConfig.init os) c) :
    SeesFinished c.mem.2 :=
  ((openRules_sound os).inv h).sees

open HostScript in
/-- One call creates a ring, another one attaches to it. -/
theorem attach_sees_finished_two : ∃ c : HostConfig .single two,
    (hostSystem .single two).Reach Unhurried (· = HostConfig.init ()) c ∧
      .attached 1 0 ∈ c.mem.2 ∧ SeesFinished c.mem.2 := by
  obtain ⟨c, hc, ht⟩ := HostScript.reach Unhurried unhurried (fun _ _ => unhurried_of)
    [create 0, .steps (.opener 0) 100, attach 1, .steps (.opener 1) 40]
    (fun c => c.mem.2.any (isAttached 1 0)) (by decide +kernel)
  obtain ⟨e, he, hea⟩ := List.any_eq_true.mp ht
  exact ⟨c, hc, eq_of_isAttached hea ▸ he, attach_sees_finished () hc⟩

/-- A store after an attach. -/
theorem not_seesFinished {g : List (Entry layout)} {i o : Nat} {w : Store (layout o).slotCount}
    (h : .attached i o ∈ g) : ¬SeesFinished (.stored o w :: g) := by
  intro hs
  obtain ⟨after, before, rfl⟩ := List.append_of_mem h
  exact (hs (.stored o w :: after) i o before rfl).2 w List.mem_cons_self

open HostScript in
theorem not_seesFinished_of_storedAfterAttach {g : List (Entry two)}
    (h : storedAfterAttach g = true) : ¬SeesFinished g := by
  unfold storedAfterAttach at h
  split at h
  · obtain ⟨e, he, hea⟩ := List.any_eq_true.mp h
    exact not_seesFinished (eq_of_isAttached hea ▸ he)
  · cases h

open HostScript in
/-- A call attaches as soon as the slot capacity is stored, and a consumer registers. Then `format`
goes on: it makes the number of consumers zero again, and the consumer stays in the registry. -/
theorem attach_sees_halfway : ∃ c : HostConfig .single two,
    (hostSystem .single two).Reach (fun _ _ => True) (· = HostConfig.init ()) c ∧
      ¬SeesFinished c.mem.2 ∧ c.pool (.user 0 (.consumer 0)) = .ret () ∧
      ((c.mem.1.object 0).state.consumer 0).isSome = true ∧
      ((c.mem.1.object 0).state.ring.entries 0).state = .active ∧
      (c.mem.1.object 0).state.ring.consumers = 0 := by
  obtain ⟨c, hc, ht⟩ := HostScript.reach (fun _ _ => True) (fun _ _ => true)
    (fun _ _ _ => trivial)
    [create 0, .steps (.opener 0) 81, attach 1, .steps (.opener 1) 40, register 0 1 0,
      .steps (.user 0 (.consumer 0)) 1000, .steps (.opener 0) 13]
    (fun c => storedAfterAttach c.mem.2 && (c.pool (.user 0 (.consumer 0))).isDone &&
      ((c.mem.1.object 0).state.consumer 0).isSome &&
      decide (((c.mem.1.object 0).state.ring.entries 0).state = .active) &&
      decide ((c.mem.1.object 0).state.ring.consumers = 0)) (by decide +kernel)
  simp only [Bool.and_eq_true, decide_eq_true_eq] at ht
  obtain ⟨⟨⟨⟨hlog, hdone⟩, hheld⟩, hactive⟩, hcount⟩ := ht
  exact ⟨c, hc, not_seesFinished_of_storedAfterAttach hlog, Prog.eq_ret_of_isDone hdone, hheld,
    hactive, hcount⟩

end TenzorBus
