import StackEscape.Proofs.Listing.Blocks
import StackEscape.Proofs.Outline.Names

/-!
# Where declarations begin

What stands right before the place where a construct is looked for: the end of another construct, an
opening brace, a colon, or an angle bracket of a `template` list. In particular no heading is read
from the middle of a qualified name.
-/

namespace StackEscape

namespace Listing

/-- The texts that a declaration may stand behind; the empty one is that of no token. -/
def declarationFronts : List String := ["", ";", "\x7b", "\x7d", ":", "<", ">", ">>"]

def BeginsDeclaration (l : Listing) (i : Nat) : Prop := l.textBefore i ∈ declarationFronts

variable {l : Listing} {stop i : Nat}

theorem text_of_seek {targets : List String} (h : l.seek targets stop i < stop) :
    l.text (l.seek targets stop i) ∈ targets := by
  fun_induction l.seek targets stop i with
  | case1 i _ hw => exact List.contains_iff_mem.mp hw
  | case2 i _ _ ih => exact ih h
  | case3 => exact absurd h ‹_›

theorem begins_succ {w : String} (h : l.text i = w) (hw : w ∈ declarationFronts) :
    l.BeginsDeclaration (i + 1) := by
  rw [BeginsDeclaration, textBefore, h]
  exact hw

theorem begins_behind_brace (hl : l.WellFormed) {o c : Nat} (ho : l.text o = "\x7b")
    (hc : l.closing? o = some c) : l.BeginsDeclaration (c + 1) :=
  begins_succ (hl.text_close_brace hc ho) (by decide)

/-- A statement ends with a `;` or a brace, or with the region. -/
theorem begins_statementEndFrom (hl : l.WellFormed) {j : Nat}
    (h : l.statementEndFrom stop i j < stop) :
    l.BeginsDeclaration (l.statementEndFrom stop i j) := by
  fun_induction l.statementEndFrom stop i j with
  | case1 j _ w hw =>
    have hend : l.text j = ";" ∨ l.text j = "\x7d" := by simpa using hw
    rcases hend with hw | hw
    · exact begins_succ hw (by decide)
    · exact begins_succ hw (by decide)
  | case2 _ _ _ _ _ _ _ hsemicolon => exact begins_succ hsemicolon (by decide)
  | case3 _ _ _ _ hw _ hc _ => exact begins_behind_brace hl hw hc
  | case4 _ _ _ _ hw => exact begins_succ hw (by decide)
  | case5 _ _ _ _ _ _ ih => exact ih h
  | case6 _ _ _ _ _ _ ih => exact ih h
  | case7 => omega

theorem begins_statementEnd (hl : l.WellFormed) (h : l.statementEnd stop i < stop) :
    l.BeginsDeclaration (l.statementEnd stop i) := begins_statementEndFrom hl h

/-- Behind the list of a `template`, if it ends, or else behind the bracket that opens it. -/
theorem begins_behindTemplate (hangle : l.text (i + 1) = "<") :
    l.BeginsDeclaration ((l.templateEnd? stop (i + 1)).getD (i + 2)) := by
  cases h : l.templateEnd? stop (i + 1) with
  | none => exact begins_succ hangle (by decide)
  | some j =>
    have hlt := lt_templateEnd? h
    obtain ⟨k, rfl⟩ : ∃ k, j = k + 1 := ⟨j - 1, by omega⟩
    rcases text_of_templateEnd? h hangle with ht | ht
    · exact begins_succ ht (by decide)
    · exact begins_succ ht (by decide)

end Listing

namespace Construct

open Listing

/-- Behind a construct a declaration may begin, if the region does not end there. -/
def Releases (l : Listing) (stop : Nat) (c : Construct) : Prop :=
  c.next < stop → l.BeginsDeclaration c.next

variable {l : Listing} {stop i : Nat}

theorem releases_namespaceAt (hl : l.WellFormed) : (namespaceAt l stop i).Releases l stop := by
  simp only [namespaceAt]
  split
  · next closer hc =>
    split at hc
    · next hbrace => exact fun _ => begins_behind_brace hl hbrace hc
    · cases hc
  · intro h
    have hlt : l.seek ["\x7b", ";"] stop (i + 1) < stop := Nat.lt_of_succ_lt h
    have hfronts : ["\x7b", ";"] ⊆ declarationFronts := by decide
    exact begins_succ rfl (hfronts (text_of_seek hlt))

theorem begins_behindClass (hl : l.WellFormed) {opener closer : Nat}
    (hbrace : l.text opener = "\x7b") (hc : l.closing? opener = some closer) :
    l.BeginsDeclaration (behindClass l stop closer) := by
  simp only [behindClass]
  split
  · next hsemicolon => exact begins_succ hsemicolon (by decide)
  · exact begins_behind_brace hl hbrace hc

theorem releases_classAt? (hl : l.WellFormed) {c : Construct} (h : classAt? l stop i = some c) :
    c.Releases l stop := by
  unfold classAt? at h
  split at h
  · cases h
  · split at h
    · next hc =>
      split at hc
      · next hbrace =>
        obtain rfl := Option.some.inj h
        exact fun _ => begins_behindClass hl hbrace hc
      · cases hc
    · cases h

theorem releases_statementAt (hl : l.WellFormed) : (statementAt l stop i).Releases l stop := by
  unfold statementAt
  split
  · next hheading =>
    obtain ⟨hbrace, _, hc⟩ := Heading.body_of_ofTokens? hheading
    exact fun _ => begins_behind_brace hl hbrace hc
  · split
    · exact begins_statementEnd hl
    · exact begins_statementEnd hl

theorem releases_ofTokens (hl : l.WellFormed) (stop i : Nat) :
    (ofTokens l stop i).Releases l stop := by
  simp only [ofTokens]
  repeat' split
  · next hend =>
    have hend : l.text i = ";" ∨ l.text i = "\x7d" := by simpa using hend
    rcases hend with hw | hw
    · exact fun _ => begins_succ hw (by decide)
    · exact fun _ => begins_succ hw (by decide)
  · next haccess =>
    have hcolon : l.text (i + 1) = ":" := by simpa using (Bool.and_eq_true_iff.mp haccess).2
    exact fun _ => begins_succ hcolon (by decide)
  · exact releases_namespaceAt hl
  · next hlinkage _ _ hc =>
    have hbrace : l.text (i + 2) = "\x7b" := by simpa using (Bool.and_eq_true_iff.mp hlinkage).2
    exact fun _ => begins_behind_brace hl hbrace hc
  · next hlinkage _ hc =>
    -- every brace of a listing is closed
    have hbrace : l.text (i + 2) = "\x7b" := by simpa using (Bool.and_eq_true_iff.mp hlinkage).2
    obtain ⟨c, hclose⟩ := hl.exists_closer hbrace
    cases hc.symm.trans hclose
  · next htemplate =>
    have hangle : l.text (i + 1) = "<" := by simpa using (Bool.and_eq_true_iff.mp htemplate).2
    exact fun _ => begins_behindTemplate hangle
  · exact begins_statementEnd hl
  · cases h : classAt? l stop i with
    | none => exact releases_statementAt hl
    | some c => exact releases_classAt? hl h
  · exact releases_statementAt hl

/-- So it may behind the brace that a construct is entered by. -/
theorem begins_opener {o : Nat} (h : o ∈ (ofTokens l stop i).opener?) :
    l.BeginsDeclaration (o + 1) := by
  have hfound := found_ofTokens l stop i
  have hbrace : l.text o = "\x7b" := by
    cases hc : ofTokens l stop i <;> rw [hc] at h hfound
    case block =>
      obtain rfl := Option.some.inj h
      exact hfound.1
    case linkage =>
      obtain rfl := Option.some.inj h
      exact hfound.1
    all_goals cases h
  exact begins_succ hbrace (by decide)

end Construct

namespace Outline

/-- **Headings are read where declarations begin.** -/
theorem exists_front_of_mem {l : Listing} (hl : l.WellFormed) {stop i : Nat}
    (hi : i < stop → l.BeginsDeclaration i) {heading : Heading}
    (h : heading ∈ (ofTokens l stop i).headings) :
    ∃ start stop, Heading.ofTokens? l start stop = some heading ∧ l.BeginsDeclaration start := by
  have hreleases := Construct.releases_ofTokens hl
  have hentered : ∀ {stop i o : Nat}, o ∈ (Construct.ofTokens l stop i).opener? →
      l.BeginsDeclaration (o + 1) := Construct.begins_opener
  fun_induction ofTokens l stop i with
  | case1 stop i _ next hc ih =>
    have hnext := hreleases stop i
    rw [hc] at hnext
    exact ih hnext h
  | case2 stop i _ kind name opener closer next hc ihin ihout =>
    have hnext := hreleases stop i
    have hopener : l.BeginsDeclaration (opener + 1) := hentered (by rw [hc]; rfl)
    rw [hc] at hnext
    rcases List.mem_append.mp h with h | h
    · exact ihin (fun _ => hopener) h
    · exact ihout hnext h
  | case3 stop i _ opener closer hc ihin ihout =>
    have hnext := hreleases stop i
    have hopener : l.BeginsDeclaration (opener + 1) := hentered (by rw [hc]; rfl)
    rw [hc] at hnext
    rcases List.mem_append.mp h with h | h
    · exact ihin (fun _ => hopener) h
    · exact ihout hnext h
  | case4 stop i hlt reads hc ih =>
    have hnext := hreleases stop i
    have hfound := Construct.found_ofTokens l stop i
    rw [hc] at hnext hfound
    rcases List.mem_cons.mp h with rfl | h
    · exact ⟨i, stop, hfound, hi hlt⟩
    · exact ih hnext h
  | case5 stop i _ d next hc ih =>
    have hnext := hreleases stop i
    rw [hc] at hnext
    exact ih hnext h
  | case6 => cases h

end Outline

end StackEscape
