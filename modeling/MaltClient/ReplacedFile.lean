import Mathlib.Data.List.Basic

/-! A file that is replaced by renaming another one over it. A power failure may
undo renames that the directory has not been synced after. -/

namespace ReplacedFile

/-- The content that is read, and what a power failure may bring back instead. -/
structure Disk (φ : Type) where
  visible : φ
  undone : List φ

variable {φ : Type}

namespace Disk

def survivors (disk : Disk φ) : List φ := disk.visible :: disk.undone

def rename (disk : Disk φ) (content : φ) :
    Disk φ := { visible := content, undone := disk.survivors }

def sync (disk : Disk φ) : Disk φ := { disk with undone := [] }

def powerFailure (disk : Disk φ) (keep : Nat) : Disk φ :=
  { visible := disk.survivors.getD keep disk.visible, undone := [] }

theorem survivors_powerFailure_subset (disk : Disk φ) (keep : Nat) :
    (disk.powerFailure keep).survivors ⊆ disk.survivors := by
  intro f hf
  rw [List.mem_singleton.mp hf]
  by_cases hkeep : keep < disk.survivors.length
  · have hget : disk.survivors.getD keep disk.visible = disk.survivors[keep] := by
      rw [List.getD_eq_getElem?_getD, List.getElem?_eq_getElem hkeep, Option.getD_some]
    rw [powerFailure, hget]
    exact List.getElem_mem hkeep
  · have hget : disk.survivors.getD keep disk.visible = disk.visible := by
      rw [List.getD_eq_getElem?_getD, List.getElem?_eq_none (Nat.le_of_not_lt hkeep),
        Option.getD_none]
    rw [powerFailure, hget]
    exact List.mem_cons_self

end Disk

/-- The contents that may be found later, if a power failure is possible only
when `failing`, and `sync` is what the directory is synced with. -/
structure Outlook (sync : Disk φ → Disk φ) (failing : Prop) where
  contents : Disk φ → List φ
  visible_mem : ∀ disk, disk.visible ∈ contents disk
  subset_survivors : ∀ disk, contents disk ⊆ disk.survivors
  rename_subset : ∀ disk f, contents (disk.rename f) ⊆ f :: contents disk
  sync_subset : ∀ disk, contents (sync disk) ⊆ [disk.visible]
  sync_visible : ∀ disk, (sync disk).visible = disk.visible
  powerFailure_subset : failing → ∀ disk keep, contents (disk.powerFailure keep) ⊆ contents disk

/-- Where directories are synced, all that survives. -/
def Outlook.synced : Outlook (Disk.sync : Disk φ → Disk φ) True where
  contents := Disk.survivors
  visible_mem _ := List.mem_cons_self
  subset_survivors _ := List.Subset.refl _
  rename_subset _ _ := List.Subset.refl _
  sync_subset _ := List.Subset.refl _
  sync_visible _ := rfl
  powerFailure_subset _ disk keep := disk.survivors_powerFailure_subset keep

/-- Without power failures, only what is visible. -/
def Outlook.powered {sync : Disk φ → Disk φ} (hsync : ∀ disk, (sync disk).visible = disk.visible) :
    Outlook sync False where
  contents disk := [disk.visible]
  visible_mem _ := List.mem_singleton_self _
  subset_survivors _ := List.cons_subset.mpr ⟨List.mem_cons_self, List.nil_subset _⟩
  rename_subset _ _ := List.cons_subset.mpr ⟨List.mem_cons_self, List.nil_subset _⟩
  sync_subset disk := by rw [hsync]; exact List.Subset.refl _
  sync_visible := hsync
  powerFailure_subset h := h.elim

end ReplacedFile
