/-
# `KoeOs.Paging.KernelImage` — the kernel after the switch to the tables of `init`

When `init` writes `cr3`, the processor goes on in the tables it has just built.  For a kernel
of at most 1 GiB they take it where the boot loader's tables did:

    PML4 entry 511    the last PDPT, of the last round of the loop
    PDPT entry 510    the PD of the kernel
    PD entry `k`      the 2 MiB from the start of the image on, `k` times as far

The window lies in entries 273 to 400 at most, so that it never gets into the way.
-/
import KoeOs.Paging.Init

namespace Koe

namespace MemoryManager

open TableTree

variable {π : Type} {st : Statics}

/-- Each page of the image is found through three tables. -/
theorem Rounds.walk_kernel {last : ℕ} {tables₀ tables : Tables}
    (h : Rounds st last 256 tables₀ tables)
    (hkernel : KernelFilled st kernelImage.start 0 (tables st.pd))
    (hend : st.kernelEnd ≤ kernelImage.start + 2 ^ 30) {v : ℕ} (hle : kernelImage.start ≤ v)
    (hlt : v < st.kernelEnd) :
    Hardware.walk tables st.pml4 v
      = .page 2 ((v - kernelImage.start) / 2 ^ 21 * 2 ^ 21) true false := by
  have huma : uma.stop = 2 ^ 46 := rfl
  have hstart : kernelImage.start = 0xFFFFFFFF80000000 := rfl
  have hkey0 : (key v 0).val = 255 + 256 := by
    simp only [key, tableLen]
    omega
  have hkey1 : key v 1 = 510 := Fin.ext (by simp only [key, tableLen]; omega)
  have hkey2 : (key v 2).val = (v - kernelImage.start) / 2 ^ 21 := by
    simp only [key, tableLen]
    omega
  have hupper := h.upper 255 (by decide) _ hkey0
  have hfilled := h.filled 255 (by decide)
  rw [PdptFilled, if_pos rfl] at hfilled
  have hword : tables st.pd (key v 2) = kernelWord (key v 2) := by
    rw [hkernel hend, if_pos ?_]
    rw [kernelPageAt, hkey2]
    omega
  have hpdpt := st.pdpt_isFrame (i := 255) (by decide)
  have hpd := st.pd_isFrame
  have htable := Hardware.decode_link (d := 0) (by decide) hpdpt
  have htable' := Hardware.decode_link (d := 1) (by decide) hpd
  have hal : kernelPageSize.align ∣ (key v 2).val * 2 ^ 21 := Nat.dvd_mul_left _ _
  have hdec : Hardware.decode 2 (kernelWord (key v 2)) = _ :=
    Hardware.decode_pageWord kernelPageFlags_ok hal
      (show (key v 2).val * 2 ^ 21 < uma.stop by rw [hkey2]; omega)
  have hbit : (kernelWord (key v 2)).testBit 1 = true :=
    (Hardware.pageWord_writable kernelPageFlags_ok hal).mpr (by decide)
  rw [Hardware.walk, base_pml4]
  simp only [Hardware.walkFrom, hupper, htable, Hardware.link_writable hpdpt,
    Hardware.link_user hpdpt, Bool.and_true, Bool.and_false, hkey1, hfilled.1, htable',
    Hardware.link_writable hpd, Hardware.link_user hpd, hword, hdec, hbit, hkey2]
  rfl

/-- For every kernel of at most 1 GiB, and whatever memory is managed: `init` returns if there is
any, and then the processor takes each address of the kernel where `KernelImageSpace::v2p` says. -/
theorem init_maps_kernel (st : Statics) (bmm : MemblockSystem) (s : Machine π)
    (hend : st.kernelEnd ≤ kernelImage.start + 2 ^ 30)
    (hfit : bmm.managedRange.base.value + bmm.managedRange.size ≤ uma.stop)
    (hzero : Zeroed st s.tables) :
    (0 < bmm.managedRange.size → ∃ map s', (init st bmm).run s = .ok map s') ∧
    ∀ map s', (init st bmm).run s = .ok map s' →
      ∀ v : Addr kernelImage, kernelImage.start ≤ v.value → v.value < st.kernelEnd →
        ∃ p, (imageV2p v).run s' = .ok p s' ∧
          Hardware.MapsTo s'.tables map.cr3 v.value p.value := by
  have hstart : kernelImage.start = 0xFFFFFFFF80000000 := rfl
  have hstop := st.kernelEnd_lt
  have hle : bmm.managedRange.size ≤ uma.stop := by omega
  refine ⟨fun hpos => ?_, fun map s' hrun v hv hlt => ?_⟩
  · obtain ⟨tables, hrun, -⟩ := init_run st bmm hpos hle s hzero
    exact ⟨_, _, hrun⟩
  rcases Nat.eq_zero_or_pos bmm.managedRange.size with hnone | hpos
  · obtain ⟨q, s'', herror⟩ := init_error st hnone s
    exact nomatch herror.symm.trans hrun
  obtain ⟨tables, hrun', hrounds, hkernel⟩ := init_run_kernel st bmm hpos hle s hzero
  obtain ⟨hmap, hs'⟩ := EStateM.Result.ok.inj (hrun'.symm.trans hrun)
  subst hmap hs'
  refine ⟨_, imageV2p_run hv (by omega) _, ?_⟩
  rw [Hardware.mapsTo_iff_of_page (hrounds.walk_kernel hkernel hend hv hlt), Statics.frame_eq]
  simp only [Hardware.order]
  omega

/-- The last byte of a kernel of 4 MiB. -/
theorem init_maps_kernel_last : ∃ map s',
    (init fourMiB (managing 0x400000 (2 ^ 30))).run blankMemory = .ok map s' ∧
    Hardware.MapsTo s'.tables map.cr3 0xFFFFFFFF803FFFFF 0x3FFFFF := by
  obtain ⟨hreturns, hmaps⟩ := init_maps_kernel fourMiB (managing 0x400000 (2 ^ 30)) blankMemory
    (by decide) (by decide) fun _ _ _ => rfl
  obtain ⟨map, s', hrun⟩ := hreturns (by decide)
  obtain ⟨p, hp, hwalk⟩ := hmaps map s' hrun ⟨0xFFFFFFFF803FFFFF⟩ (by decide) (by decide)
  have hvalue : p.value = 0x3FFFFF := by
    cases hp
    rfl
  exact ⟨map, s', hrun, hvalue ▸ hwalk⟩

end MemoryManager

end Koe
