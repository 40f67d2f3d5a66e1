import Bongtu.Core.Feed

namespace Bongtu.Core

def kemCiphertextLen : ℕ := 1088

def consumerDisclosureLen (B : ℕ) : ℕ := 6 * B

-- Three runs in leaf order: the receiver ciphertexts, the view tags, the output commitments.
def consumerDisclosureElements (receiverCts : List (List ℕ)) (viewTags outputCommitments : List ℕ) :
    List ℕ :=
  receiverCts.flatten ++ viewTags ++ outputCommitments

section Runs

variable {receiverCts : List (List ℕ)} {viewTags outputCommitments : List ℕ} {B : ℕ}

theorem length_consumerDisclosureElements (hcts : receiverCts.flatten.length = 4 * B)
    (htags : viewTags.length = B) (hrun : outputCommitments.length = B) :
    (consumerDisclosureElements receiverCts viewTags outputCommitments).length =
      consumerDisclosureLen B := by
  simp only [consumerDisclosureElements, consumerDisclosureLen, List.length_append, hcts, htags, hrun]
  omega

theorem receiverCts_run (hcts : receiverCts.flatten.length = 4 * B) :
    (consumerDisclosureElements receiverCts viewTags outputCommitments).take (4 * B) =
      receiverCts.flatten := by
  rw [consumerDisclosureElements, List.append_assoc, ← hcts, List.take_left]

theorem viewTags_run (hcts : receiverCts.flatten.length = 4 * B) (htags : viewTags.length = B) :
    ((consumerDisclosureElements receiverCts viewTags outputCommitments).drop (4 * B)).take B =
      viewTags := by
  rw [consumerDisclosureElements, List.append_assoc, ← hcts, List.drop_left, ← htags, List.take_left]

theorem outputCommitments_run (hcts : receiverCts.flatten.length = 4 * B)
    (htags : viewTags.length = B) (hrun : outputCommitments.length = B) :
    ((consumerDisclosureElements receiverCts viewTags outputCommitments).drop (5 * B)).take B =
      outputCommitments := by
  have hlen : (receiverCts.flatten ++ viewTags).length = 5 * B := by
    rw [List.length_append, hcts, htags]
    omega
  rw [consumerDisclosureElements, ← hlen, List.drop_left, ← hrun, List.take_length]

end Runs

end Bongtu.Core
