import Reachability.Proofs.Outcome
import Reachability.Sheet.Rewards

/-!
# Sheet — the labels and rewards of a sheet

Reading a sheet adds its lines one after the other (`RewardSheet.parse_induct`).  A reward is listed
under the last label, so only that label changes.
-/

namespace Reachability.RewardSheet

open Sheet

/-- What holds of the empty sheet and passes from a sheet to the sheet with what one more line
states holds of the sheet that is read from a text. -/
theorem parse_induct {motive : RewardSheet → Prop} {text : String} {sheet : RewardSheet}
    (hstep : ∀ before line value after, motive before → before.extend line value = .ok after →
      motive after)
    (hstart : motive {}) (h : parse text = .ok sheet) : motive sheet := by
  rw [parse] at h
  generalize Text.lines text.toList = lines at h
  -- the line numbers and the sheet so far change from line to line
  suffices hrun : ∀ {before : RewardSheet} {line : Nat}, motive before →
      before.addLines line lines = .ok sheet → motive sheet from hrun hstart h
  clear hstart h
  induction lines with
  | nil =>
    intro before line hbefore h
    cases h
    exact hbefore
  | cons cs rest ih =>
    intro before line hbefore h
    rw [addLines] at h
    split at h
    · next after hafter =>
      obtain ⟨value, -, hvalue⟩ := Except.bind_eq_ok_iff.mp hafter
      exact ih (hstep before line value after hbefore hvalue) h
    · cases h

/-- Only the last label lists one more reward. -/
theorem listUnderLast_append_singleton (reward : String) (labels : List Label) (last : Label) :
    listUnderLast reward (labels ++ [last]) =
      labels ++ [{ last with rewards := last.rewards ++ [reward] }] := by
  induction labels with
  | nil => rfl
  | cons label rest ih =>
    cases rest with
    | nil => rfl
    | cons next rest => exact congrArg (label :: ·) ih

/-- A reward that is taken has a new name and stands below a label. -/
theorem of_extend_reward {before after : RewardSheet} {line : Nat} {base flag : String}
    (h : before.extend line (.reward base flag) = .ok after) :
    rewardTitle ++ base ∉ before.rewards.map Reward.name ∧
      ∃ labels last, before.labels = labels ++ [last] ∧ after =
        { labels := labels ++ [{ last with rewards := last.rewards ++ [rewardTitle ++ base] }]
          rewards := before.rewards ++ [⟨rewardTitle ++ base, flag, UInt64.ofNat line⟩] } := by
  rw [extend] at h
  split at h
  · cases h
  next hnew =>
  split at h
  · cases h
  next hlabels =>
  refine ⟨by simpa using hnew, ?_⟩
  have hlast := List.dropLast_concat_getLast (mt List.isEmpty_iff.mpr hlabels)
  rw [← hlast, listUnderLast_append_singleton] at h
  cases h
  exact ⟨_, _, hlast.symm, rfl⟩

end Reachability.RewardSheet
