import Mathlib
import Reachability.Proofs.Sheet.Rewards
import Reachability.Proofs.Sheet.Sound
import Reachability.Proofs.Token.Words

/-!
# Sheet — labels and the rewards between them

Which texts are reward sheets, and what they list, said of what their lines state and without a
reader (`RewardSheet.Fits`, `RewardSheet.ofLines`).  The reader has at every line the sheet of the
lines above it, so it takes exactly these texts (`RewardSheet.parse_eq_ok_iff`).
-/

namespace Reachability

namespace Sheet

/-- The tokens of a line of the reward sheet and what it states.
* nothing: a blank line;
* `# IDENT`: a label;
* `IDENT ; IDENT ;`: a reward and its flag. -/
inductive RewardLine.Derives : List Token → RewardLine → Prop
  | blank : Derives [] .blank
  | label (name : String) : Derives [.mark .hash, .word name] (.label name)
  | reward (name flag : String) :
      Derives [.word name, .mark .semi, .word flag, .mark .semi] (.reward name flag)

namespace RewardLine

/-- The label that a line starts. -/
def label? : RewardLine → Option String
  | label name => some name
  | blank | reward .. => none

/-- The reward that a line states, if it has the number `line`. -/
def reward? (line : Nat) : RewardLine → Option Reward
  | reward name flag => some ⟨rewardTitle ++ name, flag, UInt64.ofNat line⟩
  | blank | label _ => none

/-- The name of the reward that a line states. -/
def rewardName? : RewardLine → Option String
  | reward name _ => some (rewardTitle ++ name)
  | blank | label _ => none

theorem map_name_reward? (line : Nat) (value : RewardLine) :
    (value.reward? line).map Reward.name = value.rewardName? := by
  cases value <;> rfl

end RewardLine

/-- Whatever is read of a line is what the grammar derives, and no label that is used. -/
theorem readRewardTokens_sound {stop : Nat} {used : List String} {tokens : List Placed}
    {value : RewardLine} (h : readRewardTokens stop used tokens = .ok value) :
    RewardLine.Derives (tokens.map Placed.token) value ∧
      ∀ name ∈ value.label?, name ∉ used := by
  unfold readRewardTokens at h
  split at h
  · cases h
    refine ⟨.blank, ?_⟩
    rintro _ ⟨⟩
  · split at h
    · next name rest =>
      split at h
      · cases h
      next hnew =>
      obtain ⟨hend, h⟩ := Except.seq_eq_ok_iff.mp h
      cases h
      obtain rfl := Grammar.eq_nil_of_endOfLine hend
      refine ⟨.label name, ?_⟩
      rintro _ ⟨⟩
      simpa using hnew
    · cases h
  · split at h
    · split at h
      · split at h
        · obtain ⟨hend, h⟩ := Except.seq_eq_ok_iff.mp h
          cases h
          obtain rfl := Grammar.eq_nil_of_endOfLine hend
          refine ⟨.reward _ _, ?_⟩
          rintro _ ⟨⟩
        · cases h
      · cases h
    · cases h
  · cases h

/-- What the grammar derives is read, unless it is a label that is used. -/
theorem readRewardTokens_complete {stop : Nat} {used : List String} {tokens : List Placed}
    {value : RewardLine} (h : RewardLine.Derives (tokens.map Placed.token) value)
    (hnew : ∀ name ∈ value.label?, name ∉ used) :
    readRewardTokens stop used tokens = .ok value := by
  generalize hts : tokens.map Placed.token = ts at h
  cases h with
  | blank =>
    obtain rfl := List.map_eq_nil_iff.mp hts
    rfl
  | label name =>
    obtain ⟨_, _, rfl, h₁⟩ := Grammar.exists_placed hts
    obtain ⟨_, _, rfl, h₂⟩ := Grammar.exists_placed h₁
    obtain rfl := List.map_eq_nil_iff.mp h₂
    have hunused : ¬used.contains name = true := by simpa using hnew name rfl
    rw [readRewardTokens]
    exact if_neg hunused
  | reward name flag =>
    obtain ⟨_, _, rfl, h₁⟩ := Grammar.exists_placed hts
    obtain ⟨_, _, rfl, h₂⟩ := Grammar.exists_placed h₁
    obtain ⟨_, _, rfl, h₃⟩ := Grammar.exists_placed h₂
    obtain ⟨_, _, rfl, h₄⟩ := Grammar.exists_placed h₃
    obtain rfl := List.map_eq_nil_iff.mp h₄
    rfl

end Sheet

namespace RewardSheet

open Sheet

/-! ### What lines list -/

/-- The lines in front of the first label. -/
def untilLabel (values : List RewardLine) : List RewardLine :=
  values.takeWhile (·.label?.isNone)

/-- The labels that some lines start, each with the rewards between it and the next label. -/
def labelsOf : List RewardLine → List Label
  | [] => []
  | .label name :: rest =>
    ⟨name, (untilLabel rest).filterMap RewardLine.rewardName?⟩ :: labelsOf rest
  | .blank :: rest | .reward .. :: rest => labelsOf rest

/-- The rewards that some lines state, with the number of the line from 1. -/
def rewardsOf (values : List RewardLine) : List Reward :=
  (values.zipIdx 1).filterMap fun (value, line) => value.reward? line

/-- The sheet with what some lines list. -/
def ofLines (values : List RewardLine) : RewardSheet := ⟨labelsOf values, rewardsOf values⟩

/-- Lines that make a sheet: labels differ, rewards differ, and no reward stands in front of the
first label. -/
structure Fits (values : List RewardLine) : Prop where
  labels : (values.filterMap RewardLine.label?).Nodup
  rewards : (values.filterMap RewardLine.rewardName?).Nodup
  labeled : (untilLabel values).filterMap RewardLine.rewardName? = []

theorem map_name_labelsOf (values : List RewardLine) :
    (labelsOf values).map Label.name = values.filterMap RewardLine.label? := by
  induction values with
  | nil => rfl
  | cons value rest ih =>
    cases value with
    | label name => exact congrArg (name :: ·) ih
    | blank | reward => exact ih

theorem map_name_rewardsOf (values : List RewardLine) :
    (rewardsOf values).map Reward.name = values.filterMap RewardLine.rewardName? := by
  have hvalues : (values.zipIdx 1).map Prod.fst = values := List.zipIdx_map_fst 1 values
  rw [rewardsOf, List.map_filterMap]
  conv_rhs => rw [← hvalues, List.filterMap_map]
  exact List.filterMap_congr fun value _ => RewardLine.map_name_reward? value.2 value.1

/-- The rewards in front of the first label and those that the labels list are all rewards, in
order. -/
theorem flatMap_rewards_labelsOf (values : List RewardLine) :
    (untilLabel values).filterMap RewardLine.rewardName? ++
        (labelsOf values).flatMap Label.rewards =
      values.filterMap RewardLine.rewardName? := by
  induction values with
  | nil => rfl
  | cons value rest ih =>
    cases value with
    | label name => exact ih
    | blank => exact ih
    | reward name flag => exact congrArg ((rewardTitle ++ name) :: ·) ih

/-! ### One more line -/

theorem rewards_untilLabel_append (values : List RewardLine) (value : RewardLine) :
    (untilLabel (values ++ [value])).filterMap RewardLine.rewardName? =
      (untilLabel values).filterMap RewardLine.rewardName? ++
        if labelsOf values = [] then value.rewardName?.toList else [] := by
  induction values with
  | nil => cases value <;> rfl
  | cons first rest ih =>
    cases first with
    | label name => rfl
    | blank => exact ih
    | reward name flag => exact congrArg ((rewardTitle ++ name) :: ·) ih

/-- The labels with one more line below them. -/
def withLine (labels : List Label) : RewardLine → List Label
  | .blank => labels
  | .label name => labels ++ [⟨name, []⟩]
  | .reward name _ => listUnderLast (rewardTitle ++ name) labels

theorem labelsOf_append (values : List RewardLine) (value : RewardLine) :
    labelsOf (values ++ [value]) = withLine (labelsOf values) value := by
  induction values with
  | nil => cases value <;> rfl
  | cons first rest ih =>
    cases first with
    | blank | reward => exact ih
    | label name =>
      rw [List.cons_append, labelsOf, labelsOf, ih, rewards_untilLabel_append]
      -- a reward is listed here unless another label starts below
      cases value with
      | blank | label => simp [withLine, RewardLine.rewardName?]
      | reward => cases labelsOf rest <;> simp [withLine, RewardLine.rewardName?, listUnderLast]

theorem rewardsOf_append (values : List RewardLine) (value : RewardLine) :
    rewardsOf (values ++ [value]) =
      rewardsOf values ++ (value.reward? (values.length + 1)).toList := by
  rw [rewardsOf, rewardsOf, List.zipIdx_append, List.filterMap_append, Nat.add_comm]
  rfl

/-- One more name leaves names different if it is a new one. -/
theorem nodup_append_toList_iff {names : List String} {name? : Option String} :
    (names ++ name?.toList).Nodup ↔ names.Nodup ∧ ∀ name ∈ name?, name ∉ names := by
  cases name? with
  | none => simp
  | some name =>
    rw [Option.toList_some, (List.perm_append_singleton name names).nodup_iff, List.nodup_cons,
      and_comm]
    simp

/-- Lines make a sheet with one more line if that line uses no name again and, stating a reward,
stands below a label. -/
theorem fits_append_iff {values : List RewardLine} {value : RewardLine} :
    Fits (values ++ [value]) ↔ Fits values ∧
      (∀ name ∈ value.label?, name ∉ values.filterMap RewardLine.label?) ∧
      ∀ name ∈ value.rewardName?,
        name ∉ values.filterMap RewardLine.rewardName? ∧ labelsOf values ≠ [] := by
  have hlabels : (values ++ [value]).filterMap RewardLine.label? =
      values.filterMap RewardLine.label? ++ value.label?.toList := by
    rw [List.filterMap_append]
    cases value <;> rfl
  have hrewards : (values ++ [value]).filterMap RewardLine.rewardName? =
      values.filterMap RewardLine.rewardName? ++ value.rewardName?.toList := by
    rw [List.filterMap_append]
    cases value <;> rfl
  have hlabeled : (untilLabel (values ++ [value])).filterMap RewardLine.rewardName? = [] ↔
      (untilLabel values).filterMap RewardLine.rewardName? = [] ∧
        ∀ name ∈ value.rewardName?, labelsOf values ≠ [] := by
    rw [rewards_untilLabel_append, List.append_eq_nil_iff]
    cases labelsOf values <;> cases value.rewardName? <;> simp
  constructor
  · rintro ⟨h₁, h₂, h₃⟩
    rw [hlabels, nodup_append_toList_iff] at h₁
    rw [hrewards, nodup_append_toList_iff] at h₂
    rw [hlabeled] at h₃
    exact ⟨⟨h₁.1, h₂.1, h₃.1⟩, h₁.2, fun name hname => ⟨h₂.2 name hname, h₃.2 name hname⟩⟩
  · rintro ⟨⟨h₁, h₂, h₃⟩, hlabel, hreward⟩
    constructor
    · rw [hlabels, nodup_append_toList_iff]
      exact ⟨h₁, hlabel⟩
    · rw [hrewards, nodup_append_toList_iff]
      exact ⟨h₂, fun name hname => (hreward name hname).1⟩
    · rw [hlabeled]
      exact ⟨h₃, fun name hname => (hreward name hname).2⟩

/-- The sheet of some lines becomes that of these and one more, unless a reward is not new or stands
below no label. -/
theorem extend_ofLines {values : List RewardLine} {value : RewardLine}
    (h : ∀ name ∈ value.rewardName?,
      name ∉ values.filterMap RewardLine.rewardName? ∧ labelsOf values ≠ []) :
    (ofLines values).extend (values.length + 1) value = .ok (ofLines (values ++ [value])) := by
  rw [ofLines, ofLines, labelsOf_append, rewardsOf_append]
  cases value with
  | blank | label =>
    rw [RewardLine.reward?, Option.toList_none, List.append_nil]
    rfl
  | reward name flag =>
    obtain ⟨hnew, hlabel⟩ := h _ rfl
    rw [← map_name_rewardsOf] at hnew
    rw [extend, if_neg (by simpa using hnew), if_neg (by simpa using hlabel)]
    rfl

/-- A reward that the sheet of some lines takes is new and stands below a label. -/
theorem of_extend_ofLines {values : List RewardLine} {line : Nat} {value : RewardLine}
    {after : RewardSheet} (h : (ofLines values).extend line value = .ok after) :
    ∀ name ∈ value.rewardName?,
      name ∉ values.filterMap RewardLine.rewardName? ∧ labelsOf values ≠ [] := by
  cases value with
  | blank | label => nofun
  | reward name flag =>
    obtain ⟨hnew, labels, last, hlabels, -⟩ := of_extend_reward h
    rintro _ ⟨⟩
    rw [← map_name_rewardsOf]
    refine ⟨hnew, ?_⟩
    rw [show labelsOf values = labels ++ [last] from hlabels]
    simp

/-- The sheet of lines that make one takes one more line exactly if they make a sheet with it, and
then is the sheet of them all. -/
theorem addLine_ofLines_eq_ok_iff {values : List RewardLine} (hfits : Fits values)
    {cs : List Char} {after : RewardSheet} :
    (ofLines values).addLine (values.length + 1) cs = .ok after ↔
      ∃ value, RewardLine.Derives (Token.tokens cs) value ∧ Fits (values ++ [value]) ∧
        after = ofLines (values ++ [value]) := by
  have hused : (ofLines values).labels.map Label.name = values.filterMap RewardLine.label? :=
    map_name_labelsOf values
  rw [addLine, Except.bind_eq_ok_iff, hused]
  refine exists_congr fun value => ?_
  constructor
  · rintro ⟨hread, h⟩
    obtain ⟨hderives, hlabel⟩ := readRewardTokens_sound hread
    have hreward := of_extend_ofLines h
    cases (extend_ofLines hreward).symm.trans h
    exact ⟨hderives, fits_append_iff.mpr ⟨hfits, hlabel, hreward⟩, rfl⟩
  · rintro ⟨hderives, hfits, rfl⟩
    obtain ⟨-, hlabel, hreward⟩ := fits_append_iff.mp hfits
    exact ⟨readRewardTokens_complete hderives hlabel, extend_ofLines hreward⟩

/-! ### All lines -/

/-- Lines that make a sheet make one up to every line. -/
theorem Fits.of_append {values more : List RewardLine} (h : Fits (values ++ more)) :
    Fits values := by
  induction more using List.reverseRec with
  | nil => rwa [List.append_nil] at h
  | append_singleton more value ih =>
    rw [← List.append_assoc, fits_append_iff] at h
    exact ih h.1

/-- The sheet of lines that make one takes more lines exactly if they make a sheet with them. -/
theorem addLines_ofLines_eq_ok_iff {values : List RewardLine} (hfits : Fits values)
    {lines : List (List Char)} {after : RewardSheet} :
    (ofLines values).addLines (values.length + 1) lines = .ok after ↔
      ∃ more,
        List.Forall₂ (fun cs value => RewardLine.Derives (Token.tokens cs) value) lines more ∧
        Fits (values ++ more) ∧ after = ofLines (values ++ more) := by
  induction lines generalizing values with
  | nil => simp [addLines, hfits, eq_comm]
  | cons cs rest ih =>
    have hnext (value : RewardLine) : values.length + 1 + 1 = (values ++ [value]).length + 1 := by
      rw [List.length_append, List.length_singleton]
    rw [addLines]
    constructor
    · intro h
      split at h
      · next mid hmid =>
        obtain ⟨value, hderives, hvalue, rfl⟩ := (addLine_ofLines_eq_ok_iff hfits).mp hmid
        rw [hnext value] at h
        obtain ⟨more, hmore, hall, rfl⟩ := (ih hvalue).mp h
        rw [List.append_assoc, List.singleton_append] at hall ⊢
        exact ⟨value :: more, .cons hderives hmore, hall, rfl⟩
      · cases h
    · rintro ⟨_, hlines, hall, hafter⟩
      cases hlines with
      | @cons _ value _ more hderives hmore =>
      rw [← List.singleton_append, ← List.append_assoc] at hall hafter
      have hvalue := hall.of_append
      rw [(addLine_ofLines_eq_ok_iff hfits).mpr ⟨value, hderives, hvalue, rfl⟩, hnext value]
      exact (ih hvalue).mpr ⟨more, hmore, hall, hafter⟩

/-- A text is a reward sheet exactly if each of its lines is a line of the grammar and they fit
together, and then lists what they state: the rewards in order with their lines, and the labels in
order, each with the rewards between it and the next.  So no reward is lost, repeated or moved. -/
theorem parse_eq_ok_iff (text : String) (sheet : RewardSheet) :
    (parse text = .ok sheet ↔ ∃ values,
        List.Forall₂ (fun cs value => RewardLine.Derives (Token.tokens cs) value)
          (Text.lines text.toList) values ∧
        Fits values ∧ sheet = ofLines values) ∧
      (parse text = .ok sheet →
        sheet.labels.flatMap Label.rewards = sheet.rewards.map Reward.name) := by
  have hfits : Fits [] := ⟨List.nodup_nil, List.nodup_nil, rfl⟩
  have hparse : parse text = .ok sheet ↔ _ := addLines_ofLines_eq_ok_iff hfits
  refine ⟨hparse, fun h => ?_⟩
  obtain ⟨values, -, hvalues, rfl⟩ := hparse.mp h
  rw [List.nil_append] at hvalues ⊢
  have hall := flatMap_rewards_labelsOf values
  rw [hvalues.labeled, List.nil_append] at hall
  exact hall.trans (map_name_rewardsOf values).symm

/-- Two labels, with one reward under the first and two under the second. -/
def giftSheet : RewardSheet where
  labels := [⟨"ordered", ["Reward: Torch"]⟩, ⟨"random", ["Reward: Trough", "Reward: Mirror"]⟩]
  rewards := [⟨"Reward: Torch", "Normal", 2⟩, ⟨"Reward: Trough", "Calamity", 5⟩,
    ⟨"Reward: Mirror", "Normal", 6⟩]

theorem parse_eq_ok_iff_giftSheet :
    parse "#ordered\nTorch;Normal;\n// more\n#random\nTrough;Calamity;\nMirror;Normal;\n" =
        .ok giftSheet ∧
      giftSheet.labels.flatMap Label.rewards = giftSheet.rewards.map Reward.name := by
  have hparse :
      parse "#ordered\nTorch;Normal;\n// more\n#random\nTrough;Calamity;\nMirror;Normal;\n" =
        .ok giftSheet := by cbv
  exact ⟨hparse, (parse_eq_ok_iff _ _).2 hparse⟩

end RewardSheet

end Reachability
