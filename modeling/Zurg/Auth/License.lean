import Mathlib.Tactic.SplitIfs
import Zurg.Proto

/-!
# Zurg.Auth.License — licenses and the validity of their assets (`auth.proto`, `IsAssetValid`)
-/

namespace Zurg.Auth

structure Asset where
  sn : String := ""
  name : String := ""
  expireAt : ℤ := 0
  isExpired : Bool := false
  remainingValidTimestamp : ℤ := 0
  createdAt : ℤ := 0
  deriving DecidableEq, Repr

structure LicenseResp where
  requestId : String := ""
  assets : List Asset := []
  deriving DecidableEq, Repr

/-- `AuthManager::IsAssetValid`. -/
def isAssetValid (asset : Asset) (now : ℤ) : Bool :=
  if asset.isExpired then false
  else if asset.expireAt > 0 && now ≥ asset.expireAt then false
  else if asset.remainingValidTimestamp ≤ 0 && asset.expireAt = 0 then false
  else true

/-- `now` is not past the expiry date, if there is one. -/
def Asset.unexpired (asset : Asset) (now : ℤ) : Bool := asset.expireAt ≤ 0 || now < asset.expireAt

theorem isAssetValid_iff {asset : Asset} {now : ℤ} :
    isAssetValid asset now = true ↔ asset.isExpired = false ∧ asset.unexpired now = true ∧
      (0 < asset.remainingValidTimestamp ∨ asset.expireAt ≠ 0) := by
  unfold isAssetValid Asset.unexpired
  cases asset.isExpired with
  | true => simp
  | false =>
    simp only [Bool.false_eq_true, if_false, gt_iff_lt, ge_iff_le, Bool.and_eq_true,
      decide_eq_true_eq, Bool.or_eq_true, true_and]
    split_ifs <;> simp only [false_iff, true_iff] <;> omega

/-- Time only matters through the expiry date. -/
theorem isAssetValid_of_unexpired {asset : Asset} {t now : ℤ} (hv : isAssetValid asset t = true)
    (hu : asset.unexpired now = true) : isAssetValid asset now = true := by
  obtain ⟨h1, -, h3⟩ := isAssetValid_iff.mp hv
  exact isAssetValid_iff.mpr ⟨h1, hu, h3⟩

/-- What is valid now was valid before. -/
theorem isAssetValid_earlier {asset : Asset} {t now : ℤ} (ht : t ≤ now)
    (hv : isAssetValid asset now = true) : isAssetValid asset t = true := by
  refine isAssetValid_of_unexpired hv ?_
  have hu := (isAssetValid_iff.mp hv).2.1
  simp only [Asset.unexpired, Bool.or_eq_true, decide_eq_true_eq] at hu ⊢
  omega

/-- Some asset of the license is valid. -/
def LicenseResp.authorizes (m : LicenseResp) (now : ℤ) : Bool :=
  m.assets.any (isAssetValid · now)

theorem LicenseResp.authorizes_iff {m : LicenseResp} {now : ℤ} :
    m.authorizes now = true ↔ ∃ asset ∈ m.assets, isAssetValid asset now = true := by
  rw [authorizes, List.any_eq_true]

end Zurg.Auth
