import LoopNest.Proofs.Kernel.Elements
import LoopNest.Proofs.Launch.TouchCalls
import LoopNest.Proofs.Launch.Updates

/-!
# What a launch does to single elements

Over exact integers, the kernel calls of a launch act on each output element by itself. The visits
of its tile apply the first touch, add the products of all steps of the reduction, and apply the
last touch (`Program.Computes.effectAt_visits`); all other visits leave the element as it is. The
proof follows one element through a visit (`Program.Computes.effectAt_visitUpdates`) and a run of
visits (`foldl_run`).
-/

namespace LoopNest

/-! ## Runs of visits -/

theorem foldl_run_tail {act : Visit → Int → Int} {first last : Int → Int} {amount : Visit → Int}
    {vs : List Visit}
    (hact : ∀ v ∈ vs, ∀ x, act v x =
      (if v.last then last else id) ((if v.first then first x else x) + amount v))
    {count : Nat}
    (hflags : vs.map Visit.flags = (List.range count).map fun i => (false, decide (i + 1 = count)))
    (x : Int) :
    vs.foldl (fun x v => act v x) x =
      (if count = 0 then id else last) (x + (vs.map amount).sum) := by
  induction vs generalizing count x with
  | nil =>
      have hcount : count = 0 := by simpa [eq_comm] using congrArg List.length hflags
      rw [if_pos hcount]
      exact (add_zero x).symm
  | cons v rest ih =>
      obtain ⟨count, rfl⟩ : ∃ rest, count = rest + 1 :=
        Nat.exists_eq_succ_of_ne_zero (by rintro rfl; simp at hflags)
      rw [List.range_succ_eq_map, List.map_cons, List.map_cons, List.map_map, List.cons.injEq,
        Visit.flags, Prod.mk.injEq] at hflags
      obtain ⟨⟨hfirst, hlast⟩, hrest⟩ := hflags
      rw [List.forall_mem_cons] at hact
      have htail := fun x => ih hact.2 (hrest.trans (List.map_congr_left fun i _ => by simp)) x
      rw [List.foldl_cons, htail, hact.1, hfirst, hlast, List.map_cons, List.sum_cons]
      by_cases hzero : count = 0
      · -- the last visit of the run
        have hnil : rest = [] := by simpa [hzero] using hrest
        simp [hzero, hnil]
      · simp [hzero, eq_comm, add_assoc]

/-- A run of visits applies the first touch, adds all amounts, and applies the last touch. -/
theorem foldl_run {act : Visit → Int → Int} {first last : Int → Int} {amount : Visit → Int}
    {vs : List Visit}
    (hact : ∀ v ∈ vs, ∀ x, act v x =
      (if v.last then last else id) ((if v.first then first x else x) + amount v))
    {count : Nat} (hcount : 1 ≤ count) (hflags : vs.map Visit.flags = bracketFlags count) (x : Int) :
    vs.foldl (fun x v => act v x) x = last (first x + (vs.map amount).sum) := by
  obtain ⟨count, rfl⟩ : ∃ rest, count = rest + 1 := ⟨count - 1, by omega⟩
  rw [bracketFlags, List.range_succ_eq_map, List.map_cons, List.map_map] at hflags
  cases vs with
  | nil => simp at hflags
  | cons v rest =>
      rw [List.map_cons, List.cons.injEq, Visit.flags, Prod.mk.injEq] at hflags
      obtain ⟨⟨hfirst, hlast⟩, hrest⟩ := hflags
      rw [List.forall_mem_cons] at hact
      have htail := fun x =>
        foldl_run_tail hact.2 (hrest.trans (List.map_congr_left fun i _ => by simp)) x
      rw [List.foldl_cons, htail, hact.1, hfirst, hlast, List.map_cons, List.sum_cons]
      by_cases hzero : count = 0
      · have hnil : rest = [] := by simpa [hzero] using hrest
        simp [hzero, hnil]
      · simp [hzero, add_assoc]

/-! ## Visits -/

/-- The tag of a touch kernel. -/
def KernelTags.touchTag (tags : KernelTags) : Touch → KernelTag
  | .first => tags.first
  | .last => tags.last

namespace Inputs

/-- The element of an input at an address, zero outside the buffer. -/
def element (inputs : Inputs Int) (side : Side) (address : Int) : Int :=
  Buffer.readD (inputs.buffer side) address 0

/-- The element of the auxiliary tensor at an address, zero outside the buffer or without one. -/
def auxElement (inputs : Inputs Int) (address : Int) : Int :=
  match inputs.outAux with
  | some aux => Buffer.readD aux address 0
  | none => 0

theorem auxView_eq (inputs : Inputs Int) (address i : Int) :
    Program.auxView inputs address i = inputs.auxElement (address + i) := by
  unfold Program.auxView auxElement
  cases inputs.outAux with
  | none => rfl
  | some aux => rfl

end Inputs

/-- The sum of a part of the products at an offset over offsets of a reduction. -/
def Part.sumAt (part : Part) (inputs : Inputs Int) (plane x : Operands Int)
    (steps : List (Operands Int)) : Int :=
  (steps.map fun k => part.product (inputs.element .left) (inputs.element .right) plane (x + k)).sum

/-- A sum over nested steps is the sum of the sums over the inner steps. -/
theorem Part.sumAt_sumset (part : Part) (inputs : Inputs Int) (plane x : Operands Int)
    (outer inner : List (Operands Int)) : part.sumAt inputs plane x (sumset outer inner) =
      (outer.map fun r => part.sumAt inputs plane (x + r) inner).sum := by
  rw [Part.sumAt, sumset, sum_map_flatMap]
  refine congrArg List.sum (List.map_congr_left fun r _ => ?_)
  rw [List.map_map, Part.sumAt]
  refine congrArg List.sum (List.map_congr_left fun k _ => ?_)
  rw [Function.comp_apply, add_assoc]

/-- Kernels of a program that compute with tags, where `main` is the main kernel for the buffers of
the caller. -/
structure Program.Computes (program : Program) (tags : KernelTags) (main : MainKernel) : Prop where
  touch : ∀ which, ∃ provider : Provider, provider ≠ .recording ∧
    KernelTags.makeTouch provider program.kernels.shape (tags.touchTag which) =
      .ok (program.touchKernel which)
  aux : program.kernels.shape.AuxFits
  tile : program.kernels.shape.tile = main.shape.tile
  elements : ∀ plane p, (program.kernels.shape.elementOffset plane p).out =
      (main.shape.elementOffset plane p).out ∧
    (program.kernels.shape.elementOffset plane p).outAux =
      (main.shape.elementOffset plane p).outAux
  planes : program.kernels.shape.planes = main.shape.planes
  parts : main.method.parts.map Part.plane = upTo main.shape.planes
  aligned : main.shape.Aligned
  apart : main.shape.Apart

namespace Program.Computes

variable {program : Program} {tags : KernelTags} {main : MainKernel} {inputs : Inputs Int}
  {part : Part} {p : TilePoint} (h : program.Computes tags main)

include h

theorem plane_mem (hpart : part ∈ main.method.parts) : part.plane ∈ upTo main.shape.planes := by
  rw [← h.parts]
  exact List.mem_map_of_mem hpart

theorem elementOffset_mem (hpart : part ∈ main.method.parts) (hp : p ∈ main.shape.tile) :
    main.shape.elementOffset part.plane p ∈ main.shape.elements := by
  rw [← KernelShape.map_elementOffset]
  exact List.mem_map.2 ⟨(part.plane, p),
    List.mem_flatMap.2 ⟨_, h.plane_mem hpart, List.mem_map_of_mem hp⟩, rfl⟩

/-- Every element of the output block belongs to a part of the product and to a point of the tile. -/
theorem exists_part_of_mem_elements {e : Operands Int} (he : e ∈ main.shape.elements) :
    ∃ part ∈ main.method.parts, ∃ p ∈ main.shape.tile,
      main.shape.elementOffset part.plane p = e := by
  rw [← KernelShape.map_elementOffset] at he
  obtain ⟨b, hb, rfl⟩ := List.mem_map.1 he
  obtain ⟨plane, hplane, hb⟩ := List.mem_flatMap.1 hb
  obtain ⟨p, hp, rfl⟩ := List.mem_map.1 hb
  rw [← h.parts] at hplane
  obtain ⟨part, hpart, rfl⟩ := List.mem_map.1 hplane
  exact ⟨part, hpart, p, hp, rfl⟩

theorem shape_apart : program.kernels.shape.Apart := by
  have hapart := h.apart
  rw [KernelShape.Apart, ← KernelShape.map_elementOffset, List.map_map] at hapart ⊢
  have hpoints : program.kernels.shape.planePoints = main.shape.planePoints := by
    rw [KernelShape.planePoints, KernelShape.planePoints, h.tile, h.planes]
  rw [hpoints]
  have hout : main.shape.planePoints.map (Operands.out ∘ fun b =>
        program.kernels.shape.elementOffset b.1 b.2) =
      main.shape.planePoints.map (Operands.out ∘ fun b => main.shape.elementOffset b.1 b.2) :=
    List.map_congr_left fun b _ => (h.elements b.1 b.2).1
  rwa [hout]

/-- A touch kernel that is called has the shape of the program and does what its tag says. -/
theorem touchKernel_eq (which : Touch) {kernel : TouchKernel}
    (hkernel : program.touchKernel which = some kernel) :
    kernel.shape = program.kernels.shape ∧
      ∀ aux old : Int, kernel.method.apply aux old = (tags.touchTag which).touch aux old := by
  obtain ⟨provider, hprovider, hmake⟩ := h.touch which
  rw [hkernel] at hmake
  rcases KernelTags.makeTouch_eq_ok hmake with ⟨-, hnone⟩ | ⟨made, hmade, hsome⟩
  · cases hnone
  · obtain rfl := Option.some.inj hsome
    exact Provider.touchKernel_eq_ok hprovider hmade

/-- Without a touch kernel the tag leaves elements as they are. -/
theorem touch_of_none (which : Touch) (hkernel : program.touchKernel which = none) (aux old : Int) :
    (tags.touchTag which).touch aux old = old := by
  obtain ⟨provider, -, hmake⟩ := h.touch which
  rw [hkernel] at hmake
  rcases KernelTags.makeTouch_eq_ok hmake with ⟨hundefined, -⟩ | ⟨made, -, hsome⟩
  · rw [hundefined]
    rfl
  · cases hsome

variable (inputs) in
/-- A touch kernel acts on an element as its tag says. -/
theorem effectAt_touchUpdates (which : Touch) (address : Operands Int)
    (hpart : part ∈ main.method.parts) (hp : p ∈ main.shape.tile) (x : Int) :
    effectAt (address + main.shape.elementOffset part.plane p).out
        (program.touchUpdates inputs which address) x =
      (tags.touchTag which).touch
        (inputs.auxElement (address + main.shape.elementOffset part.plane p).outAux) x := by
  unfold touchUpdates
  split
  · rename_i kernel hkernel
    obtain ⟨hshape, happly⟩ := h.touchKernel_eq which hkernel
    obtain ⟨hout, haux⟩ := h.elements part.plane p
    rw [Operands.add_out, effectAt_shift, ← hout, ← hshape, TouchKernel.effectAt_updates
      (by rw [hshape]; exact h.aux) (by rw [hshape]; exact h.shape_apart)
      (by rw [hshape, h.planes]; exact h.plane_mem hpart) (by rw [hshape, h.tile]; exact hp),
      happly, Inputs.auxView_eq, hshape, haux, Operands.add_outAux]
  · rename_i hkernel
    exact (h.touch_of_none which hkernel _ _).symm

variable (inputs) in
/-- The main kernel adds the products of its steps to an element. -/
theorem effectAt_mainUpdates (address : Operands Int) (hpart : part ∈ main.method.parts)
    (hp : p ∈ main.shape.tile) (x : Int) :
    effectAt (address + main.shape.elementOffset part.plane p).out
        (mainUpdates main inputs address) x =
      x + part.sumAt inputs main.shape.stridePlane (address + main.shape.pointOffset p)
        (main.shape.steps.map main.shape.stepOffset) := by
  rw [mainUpdates, Operands.add_out, effectAt_shift,
    MainKernel.effectAt_updates h.aligned h.apart h.parts hpart hp, KernelShape.sumOf, Part.sumAt,
    List.map_map]
  refine congrArg (x + List.sum ·) (List.map_congr_left fun s _ => ?_)
  cases part <;> simp [Part.product, Inputs.element, callerView, add_assoc, Scalar.zero]

variable (inputs) in
/-- The kernel calls of a visit, seen at an element of its block. -/
theorem effectAt_visitUpdates (v : Visit) (hpart : part ∈ main.method.parts)
    (hp : p ∈ main.shape.tile) (x : Int) :
    effectAt (v.offset + main.shape.elementOffset part.plane p).out
        (program.visitUpdates main inputs v) x =
      (if v.last then
        tags.last.touch (inputs.auxElement (v.offset + main.shape.elementOffset part.plane p).outAux)
      else id)
        ((if v.first then
          tags.first.touch (inputs.auxElement (v.offset + main.shape.elementOffset part.plane p).outAux) x
        else x) + part.sumAt inputs main.shape.stridePlane (v.offset + main.shape.pointOffset p)
          (main.shape.steps.map main.shape.stepOffset)) := by
  have htouch := fun which x => h.effectAt_touchUpdates inputs which v.offset hpart hp x
  have hmain := fun x => h.effectAt_mainUpdates inputs v.offset hpart hp x
  rw [visitUpdates, effectAt_append, effectAt_append, hmain]
  cases v.first <;> cases v.last <;>
    simp only [htouch, effectAt, KernelTags.touchTag, if_true, if_false, Bool.false_eq_true, id]

/-- A visit changes elements of its block only. -/
theorem address_of_mem_visitUpdates {v : Visit} {u : Update Int}
    (hu : u ∈ program.visitUpdates main inputs v) :
    ∃ part ∈ main.method.parts, ∃ p ∈ main.shape.tile,
      u.address = (v.offset + main.shape.elementOffset part.plane p).out := by
  -- touch kernels walk the same tile and planes as the main kernel
  have htouch : ∀ which, u ∈ program.touchUpdates inputs which v.offset →
      ∃ part ∈ main.method.parts, ∃ p ∈ main.shape.tile,
        u.address = (v.offset + main.shape.elementOffset part.plane p).out := by
    intro which hu
    unfold touchUpdates at hu
    split at hu
    · rename_i kernel hkernel
      obtain ⟨w, hw, rfl⟩ := List.mem_map.1 hu
      obtain ⟨plane, hplane, p, hp, haddress⟩ := TouchKernel.mem_updates hw
      rw [(h.touchKernel_eq which hkernel).1] at hplane hp haddress
      rw [h.planes, ← h.parts] at hplane
      obtain ⟨part, hpart, rfl⟩ := List.mem_map.1 hplane
      rw [(h.elements part.plane p).1] at haddress
      exact ⟨part, hpart, p, h.tile ▸ hp, congrArg (v.offset.out + ·) haddress⟩
    · exact absurd hu List.not_mem_nil
  rw [visitUpdates, List.mem_append, List.mem_append] at hu
  rcases hu with (hu | hu) | hu
  · split at hu
    · exact htouch _ hu
    · exact absurd hu List.not_mem_nil
  · obtain ⟨w, hw, rfl⟩ := List.mem_map.1 hu
    obtain ⟨part, hpart, p, hp, haddress⟩ := MainKernel.mem_updates hw
    exact ⟨part, hpart, p, hp, congrArg (v.offset.out + ·) haddress⟩
  · split at hu
    · exact htouch _ hu
    · exact absurd hu List.not_mem_nil

/-! ## Launches -/

variable {vs : List Visit} {tiles steps : List (Operands Int)}

/-- Elements of the blocks of different tiles do not meet. -/
theorem tile_eq (hout : ((sumset tiles main.shape.elements).map Operands.out).Nodup)
    {t t' : Operands Int} (ht : t ∈ tiles) (ht' : t' ∈ tiles) {part part' : Part}
    {p p' : TilePoint} (hpart : part ∈ main.method.parts) (hpart' : part' ∈ main.method.parts)
    (hp : p ∈ main.shape.tile) (hp' : p' ∈ main.shape.tile)
    (heq : (t + main.shape.elementOffset part.plane p).out =
      (t' + main.shape.elementOffset part'.plane p').out) : t = t' := by
  exact (eq_of_nodup_sumset (f := id) (g := id) (by rwa [List.map_id, List.map_id]) ht ht'
    (h.elementOffset_mem hpart hp) (h.elementOffset_mem hpart' hp') heq).1

/-- Only the visits of its tile change an element. -/
theorem effectAt_onTile (htile : ∀ v ∈ vs, ∃ t ∈ tiles, v.offset.out = t.out)
    (hout : ((sumset tiles main.shape.elements).map Operands.out).Nodup) {t : Operands Int}
    (ht : t ∈ tiles) (hpart : part ∈ main.method.parts) (hp : p ∈ main.shape.tile) (x : Int) :
    effectAt (t + main.shape.elementOffset part.plane p).out
        (vs.flatMap (program.visitUpdates main inputs)) x =
      effectAt (t + main.shape.elementOffset part.plane p).out
        ((onTile vs t.out).flatMap (program.visitUpdates main inputs)) x := by
  refine effectAt_flatMap_filter _ (fun v hv hne u hu heq => ?_) x
  obtain ⟨t', ht', hvt⟩ := htile v hv
  obtain ⟨part', hpart', p', hp', haddress⟩ := h.address_of_mem_visitUpdates hu
  have hsame := h.tile_eq hout ht ht' hpart hpart' hp hp' (by
    rw [← heq, haddress, Operands.add_out, Operands.add_out, hvt])
  exact of_decide_eq_false hne (by rw [hvt, hsame])

/-- The visits of all tiles apply to an element the first touch, the products of all steps of the
reduction, and the last touch. -/
theorem effectAt_visits (hbrackets : Brackets vs tiles steps) (hsteps : 1 ≤ steps.length)
    (hstill : ∀ r ∈ steps, r.out = 0 ∧ r.outAux = 0)
    (hout : ((sumset tiles main.shape.elements).map Operands.out).Nodup) {t : Operands Int}
    (ht : t ∈ tiles) (hpart : part ∈ main.method.parts) (hp : p ∈ main.shape.tile) (x : Int) :
    effectAt (t + main.shape.elementOffset part.plane p).out
        (vs.flatMap (program.visitUpdates main inputs)) x =
      tags.last.touch (inputs.auxElement (t + main.shape.elementOffset part.plane p).outAux)
        (tags.first.touch (inputs.auxElement (t + main.shape.elementOffset part.plane p).outAux) x +
          part.sumAt inputs main.shape.stridePlane (t + main.shape.pointOffset p)
            (sumset steps (main.shape.steps.map main.shape.stepOffset))) := by
  rw [h.effectAt_onTile hbrackets.tile hout ht hpart hp, effectAt_flatMap]
  have hflags := hbrackets.flags t ht
  have hoffsets := hbrackets.offsets t ht
  have hact : ∀ v ∈ onTile vs t.out, ∀ x,
      effectAt (t + main.shape.elementOffset part.plane p).out
          (program.visitUpdates main inputs v) x =
        (if v.last then
          tags.last.touch (inputs.auxElement (t + main.shape.elementOffset part.plane p).outAux)
        else id)
          ((if v.first then
            tags.first.touch (inputs.auxElement (t + main.shape.elementOffset part.plane p).outAux) x
          else x) + part.sumAt inputs main.shape.stridePlane (v.offset + main.shape.pointOffset p)
            (main.shape.steps.map main.shape.stepOffset)) := by
    intro v hv x
    -- every visit of the tile works on this element
    obtain ⟨hvout, hvaux⟩ := hbrackets.stays hstill ht hv
    have hsame := h.effectAt_visitUpdates inputs v hpart hp x
    rwa [Operands.add_out, Operands.add_outAux, hvout, hvaux, ← Operands.add_out,
      ← Operands.add_outAux] at hsame
  have hamount : ((onTile vs t.out).map fun v => part.sumAt inputs main.shape.stridePlane
      (v.offset + main.shape.pointOffset p) (main.shape.steps.map main.shape.stepOffset)).sum =
        part.sumAt inputs main.shape.stridePlane (t + main.shape.pointOffset p)
          (sumset steps (main.shape.steps.map main.shape.stepOffset)) := by
    have hsum := (hoffsets.map fun o => part.sumAt inputs main.shape.stridePlane
      (o + main.shape.pointOffset p) (main.shape.steps.map main.shape.stepOffset)).sum_eq
    rw [List.map_map, List.map_map] at hsum
    rw [Part.sumAt_sumset]
    refine hsum.trans (congrArg List.sum (List.map_congr_left fun r _ => ?_))
    rw [Function.comp_apply, add_right_comm t]
  have hrun := foldl_run hact hsteps hflags x
  rw [hamount] at hrun
  exact hrun

/-- Other elements stay as they are. -/
theorem effectAt_visits_of_ne (htile : ∀ v ∈ vs, ∃ t ∈ tiles, v.offset.out = t.out) {address : Int}
    (hother : ∀ t ∈ tiles, ∀ part ∈ main.method.parts, ∀ p ∈ main.shape.tile,
      (t + main.shape.elementOffset part.plane p).out ≠ address) (x : Int) :
    effectAt address (vs.flatMap (program.visitUpdates main inputs)) x = x := by
  refine effectAt_eq_self (fun u hu heq => ?_) x
  obtain ⟨v, hv, hu⟩ := List.mem_flatMap.1 hu
  obtain ⟨t, ht, hvt⟩ := htile v hv
  obtain ⟨part, hpart, p, hp, haddress⟩ := h.address_of_mem_visitUpdates hu
  refine hother t ht part hpart p hp ?_
  rw [← heq, haddress, Operands.add_out, Operands.add_out, hvt]

end Program.Computes

end LoopNest
