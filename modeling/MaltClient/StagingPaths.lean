import MaltClient.PathFsOverlay
import MaltClient.PlannerReplay
import MaltClient.StagingCalls

/-! The path arithmetic of the overlay on slash-separated strings, read as
arithmetic on lists of names. -/

namespace MaltClient.Staging

open GoText Checked
open Journal (Operation)
open Planner (Means)
open StagedPath (StagedName)

variable {v a r d s p cs q : List GoString} {n : GoString}

theorem isWithin_join (hv : ∀ n ∈ v, Plain n) (ha : ∀ n ∈ a, Plain n) (hne : a ≠ []) :
    isWithin (join v) (join a) = true ↔ a <+: v := by
  have ha0 : join a ≠ [] := join_ne_nil hne ha
  simp only [isWithin, ha0, decide_false, Bool.false_or, Bool.or_eq_true, decide_eq_true_eq,
    hasPrefix_iff, join_slash_prefix_iff hv ha hne]
  constructor
  · rintro (he | ⟨r, -, rfl⟩)
    · exact join_injective hv ha he ▸ List.prefix_refl _
    · exact List.prefix_append _ _
  · rintro ⟨r, rfl⟩
    by_cases hr : r = []
    · exact .inl (by simp [hr])
    · exact .inr ⟨r, hr, rfl⟩

theorem join_inj (hv : ∀ n ∈ v, Plain n) (ha : ∀ n ∈ a, Plain n) :
    join v = join a ↔ v = a := ⟨join_injective hv ha, fun h => h ▸ rfl⟩

theorem isStrictDescendant_join (hv : ∀ n ∈ v, Plain n) (ha : ∀ n ∈ a, Plain n)
    (hne : a ≠ []) : isStrictDescendant (join v) (join a) = true ↔ a <+: v ∧ v ≠ a := by
  rw [isStrictDescendant, Bool.and_eq_true, isWithin_join hv ha hne, decide_eq_true_eq, ne_eq,
    join_inj hv ha, and_comm]

theorem trimPrefix_join (ha : a ≠ []) (hr : r ≠ []) :
    trimPrefix (join (a ++ r)) (join a ++ [slash]) = join r := by
  have hsplit : join (a ++ r) = (join a ++ [slash]) ++ join r := by
    rw [join_append ha hr]
    simp
  rw [trimPrefix, hsplit, if_pos (hasPrefix_self_append _ _), List.drop_left]

theorem joinPath_join (ha : ∀ n ∈ a, Plain n) (hr : ∀ n ∈ r, Plain n) :
    joinPath (join a) (join r) = join (a ++ r) := by
  unfold joinPath
  by_cases ha0 : a = []
  · subst ha0
    rw [if_pos (by rfl), List.nil_append]
  rw [if_neg (join_ne_nil ha0 ha)]
  by_cases hr0 : r = []
  · subst hr0
    rw [if_pos (by rfl), List.append_nil]
  rw [if_neg (join_ne_nil hr0 hr), join_append ha0 hr0]

theorem replacePrefix_join (hd : ∀ n ∈ d, Plain n) (hr : ∀ n ∈ r, Plain n)
    (hs : ∀ n ∈ s, Plain n) (hne : d ≠ []) :
    replacePrefix (join (d ++ r)) (join d) (join s) = join (s ++ r) := by
  have hdr : ∀ n ∈ d ++ r, Plain n := fun n hn => (List.mem_append.mp hn).elim (hd n) (hr n)
  unfold replacePrefix
  by_cases hr0 : r = []
  · subst hr0
    simp
  · have hlong : ¬ join (d ++ r) = join d := by
      rw [join_inj hdr hd]
      simpa using hr0
    rw [if_neg hlong, trimPrefix_join hne hr0, joinPath_join hs hr]

theorem plain_moved (h : ∀ n ∈ d ++ r, Plain n) (hs : ∀ n ∈ s, Plain n) :
    ∀ n ∈ s ++ r, Plain n := fun n hn =>
  (List.mem_append.mp hn).elim (hs n) fun hr => h n (List.mem_append_right d hr)

theorem rdropWhile_join (hn : slash ∉ n) :
    (join (p ++ [n])).rdropWhile (fun r => r ≠ slash) = if p = [] then [] else join p ++
      [slash] := by
  have hall : ∀ x ∈ n.reverse, decide (x ≠ slash) = true := fun x hx => by
    simpa using fun he : x = slash => hn (he ▸ List.mem_reverse.mp hx)
  by_cases hp : p = []
  · subst hp
    rw [if_pos rfl, List.nil_append, join, List.rdropWhile, List.dropWhile_eq_nil_iff.mpr hall,
      List.reverse_nil]
  · have hsplit : join (p ++ [n]) = (join p ++ [slash]) ++ n := by
      rw [join_append hp (by simp), join]
      simp
    rw [if_neg hp, hsplit, List.rdropWhile, List.reverse_append, List.dropWhile_append_of_pos hall]
    simp

theorem dir_join (h : ∀ m ∈ p ++ [n], Name m) :
    dir (join (p ++ [n])) = if p = [] then dot else join p := by
  rw [dir, rdropWhile_join (h n (by simp)).plain.2]
  cases p with
  | nil => rfl
  | cons m p =>
    rw [if_neg (by simp), if_neg (by simp)]
    have hp : ∀ x ∈ m :: p, Name x := fun x hx => h x (List.mem_append_left _ hx)
    have hrel : ((join (m :: p) ++ [slash]).head? == some slash) = false := by
      rw [List.head?_append_of_ne_nil _ (join_ne_nil (by simp) fun x hx => (hp x hx).plain)]
      simpa using head?_join_ne_slash fun x hx => (hp x hx).plain
    have hparts : split (join (m :: p) ++ [slash]) = (m :: p) ++ [[]] := by
      rw [split_append_slash, split_join (by simp) fun x hx => (hp x hx).plain.2]
      rfl
    have hout : cleanParts false ((m :: p) ++ [[]]) = m :: p := by
      rw [cleanParts, List.foldl_append, foldl_cleanStep_names hp]
      simp [cleanStep]
    simp only [clean, hrel, hparts, hout, Bool.false_eq_true, if_false, List.cons_ne_nil]

theorem parent_join (h : ∀ m ∈ p ++ [n], Name m) :
    (if dir (join (p ++ [n])) = dot then [] else dir (join (p ++ [n]))) = join p := by
  rw [dir_join h]
  by_cases hp : p = []
  · simp [hp, join]
  · have hpl : ∀ x ∈ p, Name x := fun x hx => h x (List.mem_append_left _ hx)
    have hdot : join p ≠ dot := fun he => by
      have hs : split (join p) = p := split_join hp fun x hx => (hpl x hx).plain.2
      rw [he] at hs
      have hd : dot ∈ p := by rw [← hs]; decide
      exact (hpl dot hd).2.1 rfl
    rw [if_neg hp, if_neg hdot]

theorem takeWhile_join (hn : slash ∉ n) :
    (join (n :: r)).takeWhile (· ≠ slash) = n := by
  have hall : ∀ x ∈ n, decide (x ≠ slash) = true := fun x hx => by
    simpa using fun he : x = slash => hn (he ▸ hx)
  cases r with
  | nil =>
    rw [join, List.takeWhile_eq_self_iff]
    exact hall
  | cons m r =>
    rw [join_cons_cons, List.takeWhile_append_of_pos hall]
    simp

theorem addImmediateCandidate_child
    (h : ∀ m ∈ d ++ n :: r, Plain m) :
    addImmediateCandidate cs (join d) (join (d ++ n :: r)) = cs.insert n := by
  have hd : ∀ m ∈ d, Plain m := fun m hm => h m (List.mem_append_left _ hm)
  have hn : Plain n := h n (by simp)
  have hne : join (d ++ n :: r) ≠ join d := by
    rw [ne_eq, join_inj h hd]
    simp
  unfold addImmediateCandidate
  by_cases hd0 : d = []
  · subst hd0
    rw [List.nil_append] at hne ⊢
    have hw : isWithin (join (n :: r)) (join []) = true := by simp [isWithin, join]
    rw [if_neg (by simp [hne, hw])]
    have hnil : ¬ join ([] : List GoString) ≠ [] := fun hj => hj rfl
    simp only [if_neg hnil, takeWhile_join hn.2, if_pos hn.1]
  · have hw : isWithin (join (d ++ n :: r)) (join d) = true :=
      (isWithin_join h hd hd0).mpr (List.prefix_append _ _)
    have hjd : join d ≠ [] := join_ne_nil hd0 hd
    rw [if_neg (by simp [hne, hw])]
    simp only [hjd, ne_eq, not_false_eq_true, if_true, trimPrefix_join hd0 (List.cons_ne_nil n r)]
    rw [takeWhile_join hn.2, if_pos hn.1]

theorem addImmediateCandidate_other (hd : ∀ m ∈ d, Plain m)
    (hq : ∀ m ∈ q, Plain m) (h : ¬ (d <+: q ∧ q ≠ d)) :
    addImmediateCandidate cs (join d) (join q) = cs := by
  unfold addImmediateCandidate
  refine if_pos ?_
  by_cases he : q = d
  · exact .inl (by rw [he])
  · have hpre : ¬ d <+: q := fun hp => h ⟨hp, he⟩
    have hd0 : d ≠ [] := by
      rintro rfl
      exact hpre List.nil_prefix
    exact .inr (by simpa using fun hw => hpre ((isWithin_join hq hd hd0).mp hw))

theorem mem_addImmediateCandidate (hd : ∀ m ∈ d, Plain m) (hq : ∀ m ∈ q, Plain m) :
    n ∈ addImmediateCandidate cs (join d) (join q) ↔ n ∈ cs ∨ d ++ [n] <+: q := by
  by_cases h : d <+: q ∧ q ≠ d
  · obtain ⟨r, hr, rfl⟩ := PathFs.exists_tail h.1 h.2
    obtain ⟨m, r, rfl⟩ := List.exists_cons_of_ne_nil hr
    rw [addImmediateCandidate_child hq, List.mem_insert_iff, List.prefix_append_right_inj,
      List.cons_prefix_cons]
    simp [or_comm]
  · rw [addImmediateCandidate_other hd hq h]
    have hno : ¬ d ++ [n] <+: q := fun hp => by
      refine h ⟨(List.prefix_append d [n]).trans hp, ?_⟩
      rintro rfl
      have hle := hp.length_le
      rw [List.length_append, List.length_singleton] at hle
      omega
    simp [hno]

theorem nodup_addImmediateCandidate (h : cs.Nodup) (parent value : GoString) :
    (addImmediateCandidate cs parent value).Nodup := by
  unfold addImmediateCandidate
  simp only
  split_ifs
  · exact h
  · exact h.insert
  · exact h
  · exact h.insert
  · exact h

theorem nodup_addForwarded (h : cs.Nodup) (parent path : GoString) (L : List Operation) :
    (addForwarded cs parent path L).Nodup := by
  unfold addForwarded
  split
  · exact h
  · exact nodup_addImmediateCandidate h _ _

theorem nodup_foldl_addForwarded (h : cs.Nodup) (parent : GoString) (paths : List GoString)
    (L : List Operation) :
    (paths.foldl (fun cs path => addForwarded cs parent path L) cs).Nodup := by
  induction paths generalizing cs with
  | nil => exact h
  | cons p paths ih => exact ih (nodup_addForwarded h parent p L)

theorem nodup_addTargets (h : cs.Nodup) (parent : GoString) (L : List Operation) :
    (addTargets parent L cs).Nodup := by
  induction L generalizing cs with
  | nil => exact h
  | cons o L ih => exact ih (nodup_foldl_addForwarded h parent _ L)

section

variable [CidFormat] [PayloadHash] {κ : Type} {ofPayload : Cid → κ}

theorem operationTargets_means {o : Operation} {op : PathFs.Op GoString κ}
    (h : Means ofPayload o op) :
    operationTargets o = (PathFs.targets op).map join ∧ ∀ p ∈ PathFs.targets op, ∀ m ∈ p,
      StagedName m := by
  cases h with
  | write kind path names payload raw =>
    simpa [operationTargets, kind, path, PathFs.targets] using names.staged
  | mkdir kind path names => simpa [operationTargets, kind, path, PathFs.targets] using names.staged
  | unlink kind path names => simp [operationTargets, kind, PathFs.targets]
  | rename kind path destination names names' =>
    simpa [operationTargets, kind, destination, PathFs.targets] using names'.staged

variable {L : List Operation} {q d cs : List GoString} {n : GoString}

theorem staged_targets {ops : List (PathFs.Op GoString κ)}
    (h : List.Forall₂ (Means ofPayload) L ops) :
    ∀ op ∈ ops, ∀ p ∈ PathFs.targets op, ∀ m ∈ p, StagedName m := by
  induction h with
  | nil => simp
  | cons hm _ ih => exact List.forall_mem_cons.mpr ⟨(operationTargets_means hm).2, ih⟩

theorem plain_targets {ops : List (PathFs.Op GoString κ)}
    (h : List.Forall₂ (Means ofPayload) L ops) :
    ∀ op ∈ ops, ∀ p ∈ PathFs.targets op, ∀ m ∈ p, Plain m :=
  fun op ho p hp m hm => (staged_targets h op ho p hp m hm).plain

theorem forwardPath_join {ops : List (PathFs.Op GoString κ)}
    (h : List.Forall₂ (Means ofPayload) L ops) (hq : ∀ n ∈ q, Plain n) :
    forwardPath (join q) L = (PathFs.forward ops q).map join := by
  induction h generalizing q with
  | nil => rfl
  | @cons o op L ops hm _ ih =>
    cases hm with
    | @write p c kind path names payload raw =>
      simp only [forwardPath, PathFs.forward, PathFs.step, kind, path,
        isStrictDescendant_join hq names.plain names.ne_nil]
      split_ifs with hs
      · rfl
      · exact ih hq
    | @mkdir p kind path names =>
      simpa only [forwardPath, kind, PathFs.forward, PathFs.step, Option.bind_some] using ih hq
    | @unlink p kind path names =>
      simp only [forwardPath, PathFs.forward, PathFs.step, kind, path,
        isWithin_join hq names.plain names.ne_nil]
      split_ifs with hs
      · rfl
      · exact ih hq
    | @rename s d kind path destination names names' =>
      simp only [forwardPath, PathFs.forward, PathFs.step, kind, path, destination,
        isWithin_join hq names.plain names.ne_nil, isWithin_join hq names'.plain names'.ne_nil]
      split_ifs with hs hd
      · obtain ⟨r, rfl⟩ := hs
        have hr : ∀ n ∈ r, Plain n := fun n hn => hq n (List.mem_append_right _ hn)
        rw [replacePrefix_join names.plain hr names'.plain names.ne_nil, List.drop_left]
        exact ih (plain_moved hq names'.plain)
      · rfl
      · exact ih hq

theorem mem_addForwarded {ops : List (PathFs.Op GoString κ)}
    (h : List.Forall₂ (Means ofPayload) L ops) (hd : ∀ m ∈ d, Plain m) (hq : ∀ m ∈ q, Plain m) :
    n ∈ addForwarded cs (join d) (join q) L ↔ n ∈ cs ∨ ∃ q' ∈ PathFs.forward ops q,
      d ++ [n] <+: q' := by
  unfold addForwarded
  rw [forwardPath_join h hq]
  cases hf : PathFs.forward ops q with
  | none => simp
  | some q' =>
    simpa using mem_addImmediateCandidate hd (PathFs.names_forward (plain_targets h) hq hf)

theorem mem_foldl_addForwarded {ops : List (PathFs.Op GoString κ)}
    (h : List.Forall₂ (Means ofPayload) L ops) (hd : ∀ m ∈ d, Plain m)
    {paths : List (List GoString)} (hp : ∀ p ∈ paths, ∀ m ∈ p, Plain m) :
    n ∈ (paths.map join).foldl (fun cs path => addForwarded cs (join d) path L) cs ↔
      n ∈ cs ∨ ∃ q ∈ paths.filterMap (PathFs.forward ops), d ++ [n] <+: q := by
  induction paths generalizing cs with
  | nil => simp
  | cons p paths ih =>
    rw [List.map_cons, List.foldl_cons, ih fun q hq => hp q (by simp [hq]),
      mem_addForwarded h hd (hp p (by simp)), List.filterMap_cons]
    cases hf : PathFs.forward ops p <;> simp [or_assoc]

theorem mem_addTargets {ops : List (PathFs.Op GoString κ)}
    (h : List.Forall₂ (Means ofPayload) L ops) (hd : ∀ m ∈ d, Plain m) :
    n ∈ addTargets (join d) L cs ↔ n ∈ cs ∨ ∃ q ∈ PathFs.gathered ops, d ++ [n] <+: q := by
  induction h generalizing cs with
  | nil => simp [addTargets, PathFs.gathered]
  | @cons o op L ops hm hrest ih =>
    obtain ⟨htargets, hstaged⟩ := operationTargets_means hm
    have hplain : ∀ p ∈ PathFs.targets op, ∀ m ∈ p, Plain m :=
      fun p hp m hm => (hstaged p hp m hm).plain
    rw [addTargets, ih, htargets, mem_foldl_addForwarded hrest hd hplain, PathFs.gathered,
      or_assoc, ← exists_or]
    simp only [List.mem_append, or_and_right]

end

end MaltClient.Staging
