import Dynarec.Proofs.FirstWriter

namespace Dynarec

theorem Mode.tag_inj {mode mode' : Mode} (h : mode.tag = mode'.tag) : mode = mode' := by
  revert h
  cases mode <;> cases mode' <;> decide

theorem Mode.length_tag (mode : Mode) : mode.tag.toList.length = 8 := by
  cases mode <;> decide

theorem toDigits_inj {n n' : Nat} (h : Nat.toDigits 10 n = Nat.toDigits 10 n') : n = n' := by
  have hread := congrArg (fun digits => Nat.ofDigitChars 10 digits 0) h
  simpa using hread

theorem int_toString_inj {i j : Int} (h : toString i = toString j) : i = j := by
  have hsign (n m : Nat) : Nat.toDigits 10 n ≠ '-' :: Nat.toDigits 10 m := by
    intro heq
    have hdigit := Nat.isDigit_of_mem_toDigits (b := 10) (by decide) (by decide) (heq ▸ List.mem_cons_self)
    exact absurd hdigit (by decide)
  have hlist := congrArg String.toList h
  cases i with
  | ofNat n =>
      cases j with
      | ofNat m =>
          have hnat : n = m := toDigits_inj (by simpa [toString, Int.repr] using hlist)
          rw [hnat]
      | negSucc m => exact absurd (by simpa [toString, Int.repr] using hlist) (hsign n (m + 1))
  | negSucc n =>
      cases j with
      | ofNat m => exact absurd (by simpa [toString, Int.repr] using hlist.symm) (hsign m (n + 1))
      | negSucc m =>
          have hsucc : n + 1 = m + 1 := toDigits_inj (by simpa [toString, Int.repr] using hlist)
          rw [Nat.succ.inj hsucc]

theorem underscore_not_mem_toString (i : Int) : '_' ∉ (toString i).toList := by
  cases i <;> simp [toString, Int.repr]

namespace Bucket

def mark (added : Nat) : List Char := if added = 0 then [] else '_' :: Nat.toDigits 10 added

theorem toList_nextName (b : Bucket) :
    b.nextName.toList = b.mode.tag.toList ++ ((toString b.hash.toInt).toList ++ mark b.added) := by
  rw [nextName, mark]
  by_cases h : b.added = 0 <;> simp [h]

theorem mark_inj {text text' : List Char} {n n' : Nat} (h : text ++ mark n = text' ++ mark n') (htext : '_' ∉ text)
    (htext' : '_' ∉ text') : text = text' ∧ n = n' := by
  by_cases hn : n = 0
  · by_cases hn' : n' = 0
    · simpa [mark, hn, hn'] using h
    · have hsplit : text = text' ++ '_' :: Nat.toDigits 10 n' := by simpa [mark, hn, hn'] using h
      exact absurd (by simp [hsplit]) htext
  · by_cases hn' : n' = 0
    · have hsplit : text ++ '_' :: Nat.toDigits 10 n = text' := by simpa [mark, hn, hn'] using h
      exact absurd (by simp [← hsplit]) htext'
    · rw [mark, mark, if_neg hn, if_neg hn'] at h
      obtain ⟨htexts, _, hdigits⟩ := (List.append_cons_inj_of_notMem htext Nat.underscore_not_in_toDigits).mp h
      exact ⟨htexts, toDigits_inj hdigits⟩

theorem nextName_inj {b b' : Bucket} (h : b.nextName = b'.nextName) :
    b.mode = b'.mode ∧ b.hash = b'.hash ∧ b.added = b'.added := by
  have hlist := congrArg String.toList h
  rw [toList_nextName, toList_nextName] at hlist
  obtain ⟨htag, hrest⟩ := List.append_inj hlist (by rw [Mode.length_tag, Mode.length_tag])
  obtain ⟨hhash, hadded⟩ := mark_inj hrest (underscore_not_mem_toString _) (underscore_not_mem_toString _)
  have hint := int_toString_inj (String.toList_inj.mp hhash)
  exact ⟨Mode.tag_inj (String.toList_inj.mp htag), Int32.toInt_inj.mp hint, hadded⟩

end Bucket

namespace Cache

def added (c : Cache) (mode : Mode) (hash : Int32) : Nat := (c.bucket mode hash).added

theorem find?_putBucket (b : Bucket) (mode : Mode) (hash : Int32) (bs : List Bucket) :
    (putBucket b bs).find? (·.holds mode hash) =
      if b.holds mode hash then some b else bs.find? (·.holds mode hash) := by
  induction bs with
  | nil => cases h : b.holds mode hash <;> simp [putBucket, h]
  | cons other bs ih =>
      rw [putBucket]
      by_cases hother : other.holds b.mode b.hash = true
      · have hplace : other.mode = b.mode ∧ other.hash = b.hash := by simpa [Bucket.holds] using hother
        have hsame : other.holds mode hash = b.holds mode hash := by
          rw [Bucket.holds, Bucket.holds, hplace.1, hplace.2]
        rw [if_pos hother]
        cases hb : b.holds mode hash <;> simp [hb, hsame]
      · rw [if_neg hother, List.find?_cons, List.find?_cons, ih]
        cases hholds : other.holds mode hash with
        | false => rfl
        | true =>
            have hne : b.holds mode hash = false := by
              by_contra hb
              rw [Bool.not_eq_false] at hb
              simp only [Bucket.holds, Bool.and_eq_true, beq_iff_eq] at hholds hb hother
              exact hother ⟨hholds.1.trans hb.1.symm, hholds.2.trans hb.2.symm⟩
            simp [hne]

theorem added_put (c : Cache) (b : Bucket) (mode : Mode) (hash : Int32) :
    (c.put b).added mode hash = if b.holds mode hash then b.added else c.added mode hash := by
  simp only [added, bucket, bucket?, put, find?_putBucket]
  split <;> rfl

theorem added_add (c : Cache) (p : Procedure) (mode mode' : Mode) (hash hash' : Int32) :
    (c.add (c.bucket mode hash) p).2.added mode' hash' =
      c.added mode' hash' + if mode = mode' ∧ hash = hash' then 1 else 0 := by
  have hput := c.added_put ((c.bucket mode hash).add p) mode' hash'
  change (c.put ((c.bucket mode hash).add p)).added mode' hash' = _
  rw [hput, Bucket.holds, Bucket.add, bucket_mode, bucket_hash]
  by_cases hplace : mode = mode' ∧ hash = hash'
  · obtain ⟨rfl, rfl⟩ := hplace
    simp [added]
  · simp [hplace]

theorem added_evict (c : Cache) (mode mode' : Mode) (name : String) (hash : Int32) :
    (c.evict mode name).2.added mode' hash = c.added mode' hash := by
  rw [evict]
  cases hevict : evictFrom mode name c.buckets with
  | none => rfl
  | some bs =>
      obtain ⟨before, b, after, older, p, newer, hbs, _, _, _, rfl⟩ := evictFrom_eq_some hevict
      simp only [added, bucket, bucket?, hbs, List.find?_append, List.find?_cons]
      cases before.find? (·.holds mode' hash) with
      | some b' => rfl
      | none =>
          have hsame : ({ b with procedures := older ++ newer } : Bucket).holds mode' hash = b.holds mode' hash := rfl
          rw [hsame]
          cases b.holds mode' hash <;> rfl

theorem publish_cases (c : Cache) (p : Procedure) :
    (∃ q, c.publish p = (q, c) ∧ c.publishGenerated p = (q, c)) ∨
      c.publish p = c.add (c.bucket p.mode p.hash) p ∧
        c.publishGenerated p =
          c.add (c.bucket p.mode p.hash) { p with name := (c.bucket p.mode p.hash).nextName } := by
  rw [publish, publishGenerated]
  cases (c.bucket p.mode p.hash).find? p.entries with
  | some q => exact .inl ⟨q, rfl, rfl⟩
  | none => exact .inr ⟨rfl, rfl⟩

theorem added_le_serve (c : Cache) {command : Command} (h : command ≠ .clear) (mode : Mode) (hash : Int32) :
    c.added mode hash ≤ (c.serve command).added mode hash := by
  cases command with
  | lookup mode' run =>
      rw [serve, lookup]
      split
      · exact Nat.le_refl _
      · split <;> exact Nat.le_refl _
  | publish p =>
      rw [serve]
      rcases c.publish_cases p with ⟨q, hpublish, _⟩ | ⟨hpublish, _⟩ <;> rw [hpublish]
      rw [added_add]
      exact Nat.le_add_right _ _
  | publishGenerated p =>
      rw [serve]
      rcases c.publish_cases p with ⟨q, _, hpublish⟩ | ⟨_, hpublish⟩ <;> rw [hpublish]
      rw [added_add]
      exact Nat.le_add_right _ _
  | evict mode' name => exact (c.added_evict mode' mode name hash).ge
  | clear => exact absurd rfl h

def named (c : Cache) : Command → List Procedure
  | .publishGenerated p => (c.publishGenerated p).2.procedures.diff c.procedures
  | _ => []

/-- The procedures that a history adds under generated names, oldest first. Some of them may be gone
at its end. -/
def generated (c : Cache) : List Command → List Procedure
  | [] => []
  | command :: history => c.named command ++ (c.serve command).generated history

theorem append_diff_left (ps qs : List Procedure) : (ps ++ qs).diff ps = qs := by
  induction ps with
  | nil => simp
  | cons p ps ih => simpa using ih

theorem diff_self (ps : List Procedure) : ps.diff ps = [] := by
  simpa using append_diff_left ps []

theorem diff_of_perm_cons {p : Procedure} {ps qs : List Procedure} (h : ps.Perm (p :: qs)) :
    ps.diff qs = [p] ∧ qs.diff ps = [] := by
  constructor
  · have hdiff := (h.trans (List.perm_append_singleton p qs).symm).diff_right qs
    rwa [append_diff_left, List.perm_singleton] at hdiff
  · rw [List.eq_nil_iff_forall_not_mem]
    intro q hq
    have hcount := List.count_pos_iff.mpr hq
    rw [List.count_diff, h.count_eq, List.count_cons] at hcount
    omega

/-- A command names one procedure at most, by the count of a bucket, and the count then grows. -/
theorem named_cases (c : Cache) (command : Command) :
    c.named command = [] ∨
      ∃ mode hash q, c.named command = [q] ∧ q.name = (c.bucket mode hash).nextName ∧
        c.added mode hash < (c.serve command).added mode hash := by
  cases command with
  | lookup mode run | publish p | evict mode name | clear => exact .inl rfl
  | publishGenerated p =>
      rw [named, serve]
      rcases c.publish_cases p with ⟨q, _, hpublish⟩ | ⟨_, hpublish⟩ <;> rw [hpublish]
      · exact .inl (diff_self c.procedures)
      · refine .inr ⟨p.mode, p.hash, _, (diff_of_perm_cons (c.procedures_add_perm _)).1, rfl, ?_⟩
        rw [added_add, if_pos ⟨rfl, rfl⟩]
        exact Nat.lt_succ_self _

theorem exists_nextName_of_mem_generated {c : Cache} {history : List Command} (h : .clear ∉ history) {q : Procedure}
    (hq : q ∈ c.generated history) :
    ∃ b : Bucket, q.name = b.nextName ∧ c.added b.mode b.hash ≤ b.added := by
  induction history generalizing c with
  | nil => cases hq
  | cons command history ih =>
      obtain ⟨hcommand, hhistory⟩ := not_or.mp (mt List.mem_cons.mpr h)
      rcases List.mem_append.mp hq with hq | hq
      · rcases c.named_cases command with hnone | ⟨mode, hash, r, hone, hname, _⟩
        · rw [hnone] at hq
          cases hq
        · rw [hone, List.mem_singleton] at hq
          refine ⟨c.bucket mode hash, hq ▸ hname, ?_⟩
          rw [bucket_mode, bucket_hash, added]
      · obtain ⟨b, hname, hle⟩ := ih hhistory hq
        exact ⟨b, hname, (c.added_le_serve (Ne.symm hcommand) _ _).trans hle⟩

/-- As long as a cache is not cleared, no two procedures are added to it under the same generated
name, whether or not the first is still there. -/
theorem nodup_generated_names (c : Cache) {history : List Command} (h : .clear ∉ history) :
    ((c.generated history).map Procedure.name).Nodup := by
  induction history generalizing c with
  | nil => exact List.nodup_nil
  | cons command history ih =>
      obtain ⟨_, hhistory⟩ := not_or.mp (mt List.mem_cons.mpr h)
      have hlater := ih (c.serve command) hhistory
      rw [generated, List.map_append]
      rcases c.named_cases command with hnone | ⟨mode, hash, q, hone, hname, hlt⟩
      · rw [hnone]
        exact hlater
      · rw [hone, List.map_singleton, List.singleton_append, List.nodup_cons]
        refine ⟨?_, hlater⟩
        intro hmem
        obtain ⟨r, hr, hrname⟩ := List.mem_map.mp hmem
        obtain ⟨b, hb, hle⟩ := exists_nextName_of_mem_generated hhistory hr
        -- the later name would come from the same bucket, whose count has grown since
        obtain ⟨hmode, hhash, hadded⟩ := Bucket.nextName_inj (hb.symm.trans (hrname.trans hname))
        rw [bucket_mode] at hmode
        rw [bucket_hash] at hhash
        rw [hmode, hhash, hadded] at hle
        exact absurd hlt (Nat.not_lt.mpr hle)

def evictAndRename : List Command :=
  let p : Procedure := ⟨"", .protectedMode, [⟨0xFFFFFFFF, 1⟩], 1, 1, ⟨[], [], 0⟩, 0, 0⟩
  let q : Procedure := ⟨"FAST_PM_-1_1", .protectedMode, [⟨0, 1⟩, ⟨0xFFFFFFFF, 1⟩], 1, 1, ⟨[], [], 0⟩, 0, 1⟩
  [.publishGenerated p, .publish q, .evict .protectedMode "FAST_PM_-1", .publishGenerated p,
    .publishGenerated { p with mode := .real }]

theorem nodup_generated_names_evictAndRename :
    .clear ∉ evictAndRename ∧
      (empty.generated evictAndRename).map Procedure.name = ["FAST_PM_-1", "FAST_PM_-1_2", "FAST_RM_-1"] ∧
      ((empty.generated evictAndRename).map Procedure.name).Nodup := by
  have hclear : .clear ∉ evictAndRename := by simp [evictAndRename]
  exact ⟨hclear, by decide +kernel, nodup_generated_names empty hclear⟩

end Cache

end Dynarec
