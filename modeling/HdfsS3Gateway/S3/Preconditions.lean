import HdfsS3Gateway.S3.Validators

/-!
# Conditional requests and RFC 7232

The standard evaluates the conditional headers of a request in two stages. The first looks at
If-Match and only without it at If-Unmodified-Since, the second at If-None-Match and only without it
at If-Modified-Since. Both operations check every header that is present, so a date next to a tag
can refuse a request that the standard lets through. They decide as the standard does exactly when
no date that it ignores fails its check.
-/

namespace HdfsS3Gateway

open Interaction

/-- The strong comparison: two strong tags with the same value. -/
def ETag.strongEq : ETag → ETag → Bool
  | .strong a, .strong b => a == b
  | _, _ => false

/-- A tag meets a condition under a comparison; `*` is met by every object. -/
def ETagCondition.metBy (cmp : ETag → ETag → Bool) (etag : ETag) : ETagCondition → Bool
  | .any => true
  | .etag other => cmp etag other

/-- If-Match is met, by the strong comparison. -/
def ETagCondition.strongMet (etag : ETag) : ETagCondition → Bool := metBy ETag.strongEq etag

/-- If-None-Match is met by a tag with the same value. -/
def ETagCondition.weakMet (etag : ETag) : ETagCondition → Bool :=
  metBy (fun a b => a.value == b.value) etag

namespace Conditions

variable (c : Conditions) (etag : ETag) (lastModified : Timestamp)

/-- Some header of the first stage fails. -/
def Blocked : Prop :=
  c.ifMatch.any (fun cond => !cond.strongMet etag) = true ∨
    c.ifUnmodifiedSince.any (fun since => since.before lastModified) = true

/-- Some header of the second stage finds the object unmodified. -/
def Stale : Prop :=
  c.ifNoneMatch.any (ETagCondition.weakMet etag) = true ∨
    c.ifModifiedSince.any (fun since => !since.before lastModified) = true

instance : Decidable (c.Blocked etag lastModified) := inferInstanceAs (Decidable (_ ∨ _))

instance : Decidable (c.Stale etag lastModified) := inferInstanceAs (Decidable (_ ∨ _))

variable {c etag lastModified}

end Conditions

/-! ## The gateway -/

/-- The strong comparison compares the values of strong tags. -/
theorem ETag.strongEq_iff (a b : ETag) :
    a.strongEq b = true ↔ ∃ value, a = .strong value ∧ b = .strong value := by
  cases a <;> cases b <;> simp only [strongEq, beq_iff_eq, ETag.strong.injEq, reduceCtorEq,
    false_and, and_false, exists_false, exists_eq_left', Bool.false_eq_true]
  exact eq_comm

namespace HdfsGateway

variable (self : HdfsGateway)

/-- The tag comparisons of the crate are those of the standard. -/
theorem strongMatch_eq (etag : ETag) : self.strongMatch etag = ETagCondition.strongMet etag := by
  funext cond
  cases cond with
  | any => rfl
  | etag other =>
    exact Bool.eq_iff_iff.mpr ((self.crates.strongCmp_iff _ _).trans (ETag.strongEq_iff _ _).symm)

theorem weakMatch_eq (etag : ETag) : self.weakMatch etag = ETagCondition.weakMet etag := by
  funext cond
  cases cond with
  | any => rfl
  | etag other => exact Bool.eq_iff_iff.mpr ((self.crates.weakCmp_iff _ _).trans beq_iff_eq.symm)

end HdfsGateway

end HdfsS3Gateway
