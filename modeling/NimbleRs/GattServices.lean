import NimbleRs.GattTable
import Mathlib.Tactic

/-!
# The runtime table is its description

The loops of `BleGattServices::new` fill the four zeroed allocations from the front, so
that the running indices are the lengths of what has been written. What they leave is laid
out service by service, and every pointer in it leads the host to what was described.
-/
namespace NimbleRs.Gatt

variable {w : ℕ} {repr : BleGattCharFlag → BitVec w}

/-- The definition of characteristic number `c`. -/
def chrDefOf (repr : BleGattCharFlag → BitVec w) (c : ℕ) (chr : BleGattCharacteristic) :
    ChrDef UuidPtr w :=
  ⟨some (.chars c), some .gattsAccessCb, flagsToRepr repr chr.flags⟩

def chrRow (repr : BleGattCharFlag → BitVec w) :
    ℕ → List BleGattCharacteristic → List (ChrDef UuidPtr w)
  | _, [] => []
  | c, chr :: chrs => chrDefOf repr c chr :: chrRow repr (c + 1) chrs

/-- All characteristic definitions, each service's behind those of the one before. -/
def layout (repr : BleGattCharFlag → BitVec w) : ℕ → List BleGattService → List (ChrDef UuidPtr w)
  | _, [] => []
  | c, s :: ss =>
    (chrRow repr c s.characteristics ++ [ChrDef.zero]) ++
      layout repr (c + s.characteristics.length) ss

/-- Service number `k`, whose characteristics begin at definition `d`. -/
def svcDefOf (k d : ℕ) (s : BleGattService) : SvcDef UuidPtr ℕ :=
  ⟨SvcType.of s.primary, some (.svcUuids k), some d⟩

def svcRow : ℕ → ℕ → List BleGattService → List (SvcDef UuidPtr ℕ)
  | _, _, [] => []
  | k, d, s :: ss => svcDefOf k d s :: svcRow (k + 1) (d + (s.characteristics.length + 1)) ss

theorem length_chrRow (c : ℕ) (chrs : List BleGattCharacteristic) :
    (chrRow repr c chrs).length = chrs.length := by
  induction chrs generalizing c with
  | nil => rfl
  | cons chr chrs ih => rw [chrRow, List.length_cons, ih, List.length_cons]

theorem layout_append (c : ℕ) (ss ts : List BleGattService) :
    layout repr c (ss ++ ts) =
      layout repr c ss ++ layout repr (c + (ss.flatMap (·.characteristics)).length) ts := by
  induction ss generalizing c with
  | nil => simp [layout]
  | cons s ss ih =>
    simp only [List.cons_append, layout, ih, List.flatMap_cons, List.length_append,
      List.append_assoc, Nat.add_assoc]

section Loops
variable {α : Type*}

/-- The first element that has not been written is written. -/
theorem setAt_zeroed (l : List α) (n : ℕ) (z a : α) :
    setAt (l ++ List.replicate (n + 1) z) l.length a = .ok ((l ++ [a]) ++ List.replicate n z) := by
  have hlt : l.length < (l ++ List.replicate (n + 1) z).length := by
    rw [List.length_append, List.length_replicate]
    omega
  unfold setAt
  rw [if_pos hlt, List.set_append_right _ _ le_rfl, Nat.sub_self, List.replicate_succ,
    List.set_cons_zero, List.append_assoc, List.singleton_append]

theorem ptrAdd_zeroed (l : List α) (n : ℕ) (z : α) :
    ptrAdd (l ++ List.replicate (n + 1) z) l.length = .ok l.length := by
  unfold ptrAdd
  rw [if_pos]
  rw [List.length_append, List.length_replicate]
  omega

variable (cs : List BleGattCharacteristic) (us : List BleUuid) (ds : List (ChrDef UuidPtr w))
  (vs : List (SvcDef UuidPtr ℕ)) (n m : ℕ)

theorem addChr_zeroed (chr : BleGattCharacteristic) :
    addChr repr ⟨cs ++ List.replicate (n + 1) zeroCharacteristic, us,
        ds ++ List.replicate (m + 1) ChrDef.zero, vs, cs.length, ds.length⟩ chr =
      .ok ⟨(cs ++ [chr]) ++ List.replicate n zeroCharacteristic, us,
        (ds ++ [chrDefOf repr cs.length chr]) ++ List.replicate m ChrDef.zero, vs,
        (cs ++ [chr]).length, (ds ++ [chrDefOf repr cs.length chr]).length⟩ := by
  simp only [addChr, setAt_zeroed, List.length_append, List.length_singleton]
  rfl

theorem addChrs_zeroed (chrs : List BleGattCharacteristic) :
    chrs.foldlM (addChr repr) ⟨cs ++ List.replicate (chrs.length + n) zeroCharacteristic, us,
        ds ++ List.replicate (chrs.length + m) ChrDef.zero, vs, cs.length, ds.length⟩ =
      .ok ⟨(cs ++ chrs) ++ List.replicate n zeroCharacteristic, us,
        (ds ++ chrRow repr cs.length chrs) ++ List.replicate m ChrDef.zero, vs,
        (cs ++ chrs).length, (ds ++ chrRow repr cs.length chrs).length⟩ := by
  induction chrs generalizing cs ds with
  | nil => simp [chrRow, pure, Except.pure]
  | cons chr chrs ih =>
    have hn : (chr :: chrs).length + n = (chrs.length + n) + 1 := by
      rw [List.length_cons]
      omega
    have hm : (chr :: chrs).length + m = (chrs.length + m) + 1 := by
      rw [List.length_cons]
      omega
    have hih := ih (cs ++ [chr]) (ds ++ [chrDefOf repr cs.length chr])
    rw [List.foldlM_cons, hn, hm, addChr_zeroed]
    show chrs.foldlM (addChr repr) _ = _
    rw [hih]
    simp only [chrRow, List.append_assoc, List.singleton_append, List.length_append,
      List.length_singleton]

theorem addSvc_zeroed (hvs : vs.length = us.length) (s : BleGattService) :
    addSvc repr ⟨cs ++ List.replicate (s.characteristics.length + n) zeroCharacteristic,
        us ++ List.replicate (m + 1) (.uuid16 0),
        ds ++ List.replicate (s.characteristics.length + (n + m + 1)) ChrDef.zero,
        vs ++ List.replicate (m + 2) SvcDef.zero, cs.length, ds.length⟩ us.length s =
      .ok ⟨(cs ++ s.characteristics) ++ List.replicate n zeroCharacteristic,
        (us ++ [s.uuid]) ++ List.replicate m (.uuid16 0),
        (ds ++ (chrRow repr cs.length s.characteristics ++ [ChrDef.zero])) ++
          List.replicate (n + m) ChrDef.zero,
        (vs ++ [svcDefOf us.length ds.length s]) ++ List.replicate (m + 1) SvcDef.zero,
        (cs ++ s.characteristics).length,
        (ds ++ (chrRow repr cs.length s.characteristics ++ [ChrDef.zero])).length⟩ := by
  have hptr : ptrAdd (ds ++ List.replicate (s.characteristics.length + (n + m + 1)) ChrDef.zero)
      ds.length = .ok ds.length :=
    ptrAdd_zeroed ds (s.characteristics.length + (n + m)) ChrDef.zero
  have hsvc : setAt (vs ++ List.replicate (m + 2) SvcDef.zero) us.length
      ⟨SvcType.of s.primary, some (.svcUuids us.length), some ds.length⟩ =
        .ok (vs ++ [svcDefOf us.length ds.length s] ++ List.replicate (m + 1) SvcDef.zero) := by
    rw [← hvs]
    exact setAt_zeroed vs (m + 1) SvcDef.zero (svcDefOf vs.length ds.length s)
  have hchrs : s.characteristics.foldlM (addChr repr) _ = _ :=
    addChrs_zeroed cs (us ++ [s.uuid] ++ List.replicate m (.uuid16 0)) ds
      (vs ++ [svcDefOf us.length ds.length s] ++ List.replicate (m + 1) SvcDef.zero) n (n + m + 1)
      s.characteristics
  -- the terminator is the first of the definitions that are still zero
  have hterm : ds ++ chrRow repr cs.length s.characteristics ++
      List.replicate (n + m + 1) ChrDef.zero =
        ds ++ (chrRow repr cs.length s.characteristics ++ [ChrDef.zero]) ++
          List.replicate (n + m) ChrDef.zero := by
    simp [List.replicate_succ]
  have hdefAt : (ds ++ chrRow repr cs.length s.characteristics).length + 1 =
      (ds ++ (chrRow repr cs.length s.characteristics ++ [ChrDef.zero])).length := by
    simp [Nat.add_assoc]
  simp only [addSvc, setAt_zeroed, hptr, hsvc, bind, Except.bind, hchrs, pure, Except.pure, hterm,
    hdefAt]

/-- The loop over the services, from any point of it on. -/
theorem addSvcs_zeroed (hvs : vs.length = us.length) (ss : List BleGattService) :
    addSvcs repr ⟨cs ++ List.replicate (ss.flatMap (·.characteristics)).length zeroCharacteristic,
        us ++ List.replicate ss.length (.uuid16 0),
        ds ++ List.replicate ((ss.flatMap (·.characteristics)).length + ss.length) ChrDef.zero,
        vs ++ List.replicate (ss.length + 1) SvcDef.zero, cs.length, ds.length⟩ us.length ss =
      .ok ⟨cs ++ ss.flatMap (·.characteristics), us ++ ss.map (·.uuid),
        ds ++ layout repr cs.length ss, vs ++ (svcRow us.length ds.length ss ++ [SvcDef.zero]),
        (cs ++ ss.flatMap (·.characteristics)).length,
        (ds ++ layout repr cs.length ss).length⟩ := by
  induction ss generalizing cs us ds vs with
  | nil => simp [addSvcs, layout, svcRow]
  | cons s ss ih =>
    have hn : ((s :: ss).flatMap (·.characteristics)).length =
        s.characteristics.length + (ss.flatMap (·.characteristics)).length := by
      rw [List.flatMap_cons, List.length_append]
    have hd : s.characteristics.length + (ss.flatMap (·.characteristics)).length +
        (s :: ss).length = s.characteristics.length +
          ((ss.flatMap (·.characteristics)).length + ss.length + 1) := by
      rw [List.length_cons]
      omega
    rw [hn, hd, List.length_cons, addSvcs, addSvc_zeroed cs us ds vs _ _ hvs]
    have hlen : us.length + 1 = (us ++ [s.uuid]).length := by simp
    have hih := ih (cs ++ s.characteristics) (us ++ [s.uuid])
      (ds ++ (chrRow repr cs.length s.characteristics ++ [ChrDef.zero]))
      (vs ++ [svcDefOf us.length ds.length s]) (by simp [hvs])
    show addSvcs repr _ (us.length + 1) ss = _
    rw [hlen, hih]
    simp only [layout, svcRow, List.flatMap_cons, List.map_cons, List.append_assoc,
      List.length_append, List.length_singleton, length_chrRow, List.cons_append,
      List.nil_append]

end Loops

/-- What the loops leave in the four allocations. -/
def built (repr : BleGattCharFlag → BitVec w) (services : List BleGattService) : Build w :=
  ⟨services.flatMap (·.characteristics), services.map (·.uuid), layout repr 0 services,
    svcRow 0 0 services ++ [SvcDef.zero], (services.flatMap (·.characteristics)).length,
    (layout repr 0 services).length⟩

theorem newZeroed_ok {α : Type*} {calloc : Bool} (hcalloc : calloc = true) (len : ℕ) (zero : α) :
    newZeroed calloc len zero = .ok (List.replicate len zero) := by
  unfold newZeroed
  by_cases hlen : len = 0
  · simp [hlen]
  · rw [if_neg hlen, if_pos hcalloc]

theorem bleGattServicesNew_eq {calloc : ℕ → Bool} (hcalloc : ∀ k, calloc k = true)
    (services : List BleGattService) :
    bleGattServicesNew calloc repr services = .ok (built repr services) := by
  have htotal : (services.map (·.characteristics.length)).sum =
      (services.flatMap (·.characteristics)).length := by
    rw [List.length_flatMap]
  have hloop : addSvcs repr _ _ services = _ := addSvcs_zeroed [] [] [] [] rfl services
  simp only [List.nil_append, List.length_nil] at hloop
  simp only [bleGattServicesNew, newZeroed_ok (hcalloc _), bind, Except.bind, htotal]
  exact hloop

/-- What the host is to see of a characteristic. -/
def seenChr (repr : BleGattCharFlag → BitVec w) (chr : BleGattCharacteristic) : ChrSeen w :=
  ⟨chr.uuid, flagsToRepr repr chr.flags, some .gattsAccessCb⟩

def seenSvc (repr : BleGattCharFlag → BitVec w) (s : BleGattService) : SvcSeen w :=
  ⟨SvcType.of s.primary, s.uuid, s.characteristics.map (seenChr repr)⟩

theorem seesSvc_seenSvc (s : BleGattService) : SeesSvc repr s (seenSvc repr s) where
  type := rfl
  uuid := rfl
  characteristics := by
    show List.Forall₂ (SeesChr repr) s.characteristics (s.characteristics.map (seenChr repr))
    rw [List.forall₂_map_right_iff, List.forall₂_same]
    exact fun chr _ => ⟨rfl, getLsbD_flagsToRepr chr.flags, rfl⟩

section Runtime

/-- A row reads as its characteristics if their UUIDs are where it says. -/
theorem reads_chrRow {uuid : UuidPtr → Option BleUuid} {c : ℕ}
    {chrs : List BleGattCharacteristic}
    (huuid : ∀ j chr, chrs[j]? = some chr → uuid (.chars (c + j)) = some chr.uuid) :
    List.Forall₂ (ReadsChr uuid) (chrRow repr c chrs) (chrs.map (seenChr repr)) := by
  induction chrs generalizing c with
  | nil => exact .nil
  | cons chr chrs ih =>
    apply List.Forall₂.cons
    · exact ⟨huuid 0 chr rfl, rfl, rfl⟩
    · apply ih
      intro j d hd
      have hj := huuid (j + 1) d (by simpa using hd)
      rwa [show c + 1 + j = c + (j + 1) by omega]

variable (done ss : List BleGattService) (s : BleGattService)

theorem built_svc_uuid :
    (built repr (done ++ s :: ss)).tree.uuid (.svcUuids done.length) = some s.uuid := by
  simp [built, Build.tree]

theorem built_chr_uuid {j : ℕ} {chr : BleGattCharacteristic}
    (hj : s.characteristics[j]? = some chr) :
    (built repr (done ++ s :: ss)).tree.uuid
      (.chars ((done.flatMap (·.characteristics)).length + j)) = some chr.uuid := by
  have hlt : j < s.characteristics.length := (List.getElem?_eq_some_iff.mp hj).1
  show ((done ++ s :: ss).flatMap (·.characteristics))[_]?.map BleGattCharacteristic.uuid = _
  rw [List.flatMap_append, List.flatMap_cons, List.getElem?_append_right (Nat.le_add_right _ _),
    Nat.add_sub_cancel_left, List.getElem?_append_left hlt, hj]
  rfl

/-- The pointer of a service leads to its own row. -/
theorem built_chrs :
    (built repr (done ++ s :: ss)).tree.chrs (layout repr 0 done).length =
      some (chrRow repr (done.flatMap (·.characteristics)).length s.characteristics ++
        ChrDef.zero :: layout repr ((done.flatMap (·.characteristics)).length +
          s.characteristics.length) ss) := by
  have hlayout : layout repr 0 (done ++ s :: ss) = layout repr 0 done ++
      (chrRow repr (done.flatMap (·.characteristics)).length s.characteristics ++
        ChrDef.zero :: layout repr ((done.flatMap (·.characteristics)).length +
          s.characteristics.length) ss) := by
    rw [layout_append, layout, Nat.zero_add, List.append_assoc, List.singleton_append]
  simp only [built, Build.tree, hlayout]
  rw [if_pos (by simp), List.drop_left]

/-- The services from any one on, with the definitions behind those of the ones before. -/
theorem reads_svcRow :
    List.Forall₂ (ReadsSvc (built repr (done ++ ss)).tree.uuid (built repr (done ++ ss)).tree.chrs)
      (svcRow done.length (layout repr 0 done).length ss) (ss.map (seenSvc repr)) := by
  induction ss generalizing done with
  | nil => exact .nil
  | cons s ss ih =>
    have hnext := ih (done ++ [s])
    have hlen : (layout repr 0 (done ++ [s])).length =
        (layout repr 0 done).length + (s.characteristics.length + 1) := by
      simp [layout_append, layout, length_chrRow]
    rw [List.append_assoc, List.singleton_append, List.length_append, List.length_singleton,
      hlen] at hnext
    refine .cons ⟨rfl, built_svc_uuid done ss s, _, _, _, rfl, built_chrs done ss s, ?_⟩ hnext
    exact reads_chrRow (fun j chr => built_chr_uuid done ss s)

theorem built_walk : (built repr ss).tree.walk = some (ss.map (seenSvc repr)) :=
  walkSvcs_of_reads (reads_svcRow [] ss)

end Runtime

section Static

/-- The rest of `CHRS` reads as the characteristics that are left. -/
theorem reads_staticChrs {uuid : StaticUuid → Option BleUuid} {k j : ℕ} {chrs : List MacroChr}
    (huuid : ∀ i c, chrs[i]? = some c → uuid (.chr k (j + i)) = some c.uuid) :
    ∃ ds, staticChrs repr k j chrs = ds ++ [ChrDef.zero] ∧
      List.Forall₂ (ReadsChr uuid) ds (chrs.map fun c => seenChr repr c.characteristic) := by
  induction chrs generalizing j with
  | nil => exact ⟨[], rfl, .nil⟩
  | cons c chrs ih =>
    have hrest : ∀ i d, chrs[i]? = some d → uuid (.chr k (j + 1 + i)) = some d.uuid := by
      intro i d hd
      have hi := huuid (i + 1) d (by simpa using hd)
      rwa [show j + 1 + i = j + (i + 1) by omega]
    obtain ⟨ds, hds, hreads⟩ := ih hrest
    refine ⟨_ :: ds, by rw [staticChrs, hds]; rfl, .cons ⟨?_, ?_, rfl⟩ hreads⟩
    · exact huuid 0 c rfl
    · exact foldl_or_eq_flagsToRepr c.flags

theorem reads_staticSvcs (done ss : List MacroSvc) :
    ∃ ds, staticSvcs done.length ss = ds ++ [SvcDef.zero] ∧
      List.Forall₂
        (ReadsSvc (staticTree repr (done ++ ss)).uuid (staticTree repr (done ++ ss)).chrs)
        ds (ss.map fun s => seenSvc repr s.service) := by
  induction ss generalizing done with
  | nil => exact ⟨[], rfl, .nil⟩
  | cons s ss ih =>
    obtain ⟨ds, hds, hreads⟩ := ih (done ++ [s])
    rw [List.length_append, List.length_singleton] at hds
    rw [List.append_assoc, List.singleton_append] at hreads
    have huuid : ∀ i c, s.chrs[i]? = some c →
        (staticTree repr (done ++ s :: ss)).uuid (.chr done.length (0 + i)) = some c.uuid := by
      intro i c hc
      simp [staticTree, hc]
    obtain ⟨cs, hcs, hchrs⟩ : ∃ cs, staticChrs repr done.length 0 s.chrs = _ ∧ _ :=
      reads_staticChrs huuid
    refine ⟨_ :: ds, by rw [staticSvcs, hds]; rfl, .cons ⟨rfl, ?_, _, cs, [], rfl, ?_, ?_⟩ hreads⟩
    · simp [makeSvc, staticTree, seenSvc, MacroSvc.service]
    · simp [staticTree, hcs]
    · simpa [seenSvc, MacroSvc.service, Function.comp_def] using hchrs

theorem staticTree_walk (table : List MacroSvc) :
    (staticTree repr table).walk = some (table.map fun s => seenSvc repr s.service) := by
  obtain ⟨ds, hds, hreads⟩ : ∃ ds, staticSvcs 0 table = _ ∧
      List.Forall₂ (ReadsSvc (staticTree repr table).uuid (staticTree repr table).chrs) ds _ :=
    reads_staticSvcs [] table
  show walkSvcs _ _ (staticSvcs 0 table) = _
  rw [hds]
  exact walkSvcs_of_reads hreads

end Static

/-- The table that is built at runtime reads as its description, and so does the table that
is assembled from the same description at compile time. -/
theorem gatt_table_represents (repr : BleGattCharFlag → BitVec w) {calloc : ℕ → Bool}
    (hcalloc : ∀ k, calloc k = true) (services : List BleGattService) :
    ∃ table seen, bleGattServicesNew calloc repr services = .ok table ∧
      table.tree.walk = some seen ∧ List.Forall₂ (SeesSvc repr) services seen ∧
      ∀ static : List MacroSvc, static.map MacroSvc.service = services →
        (staticTree repr static).walk = some seen := by
  refine ⟨built repr services, services.map (seenSvc repr), bleGattServicesNew_eq hcalloc services,
    built_walk services, ?_, fun static hstatic => ?_⟩
  · rw [List.forall₂_map_right_iff, List.forall₂_same]
    exact fun s _ => seesSvc_seenSvc s
  · rw [staticTree_walk, ← hstatic, List.map_map]
    rfl

/-- The table of the source's own test. -/
example :
    ((bleGattServicesNew (fun _ => true) (fun flag => if flag = .write then (8 : BitVec 16) else 2)
      [⟨true, .uuid16 0xaaaa, [⟨.uuid16 0x1111, {.write}⟩, ⟨.uuid16 0x2222, {.read, .indicate}⟩]⟩,
        ⟨false, .uuid16 0xbbbb, [⟨.uuid16 0x3333, {.notify}⟩]⟩]).toOption.bind (·.tree.walk)) =
    some [⟨.primary, .uuid16 0xaaaa, [⟨.uuid16 0x1111, 8, some .gattsAccessCb⟩,
        ⟨.uuid16 0x2222, 2, some .gattsAccessCb⟩]⟩,
      ⟨.secondary, .uuid16 0xbbbb, [⟨.uuid16 0x3333, 2, some .gattsAccessCb⟩]⟩] := by decide

/-- A secondary service without characteristics between two primary ones. -/
theorem gatt_table_with_empty_service :
    let services : List BleGattService :=
      [⟨true, .uuid16 0xaaaa, [⟨.uuid16 0x1111, {.write}⟩, ⟨.uuid128 7, {.read, .indicate}⟩]⟩,
        ⟨false, .uuid16 0xbbbb, []⟩, ⟨true, .uuid128 9, [⟨.uuid16 0x3333, {.notify}⟩]⟩]
    let repr : BleGattCharFlag → BitVec 16 := fun flag =>
      if flag = .write then 8 else if flag = .read then 2 else if flag = .indicate then 32 else 16
    ∃ table seen, bleGattServicesNew (fun _ => true) repr services = .ok table ∧
      table.tree.walk = some seen ∧ List.Forall₂ (SeesSvc repr) services seen ∧
      ∀ static : List MacroSvc, static.map MacroSvc.service = services →
        (staticTree repr static).walk = some seen :=
  gatt_table_represents _ (fun _ => rfl) _

end NimbleRs.Gatt
