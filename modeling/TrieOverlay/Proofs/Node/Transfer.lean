import TrieOverlay.Endpoint
import TrieOverlay.Proofs.Bulk.RoundTrip
import TrieOverlay.Proofs.Bulk.ScratchFile
import TrieOverlay.Proofs.Envelope
import TrieOverlay.Proofs.Node.Opening
import TrieOverlay.Proofs.Node.Steps

/-!
# How a bulk file gets to another node

A message that names a bulk file travels in five steps: the lines of the file are read, the envelope
with these lines is printed, the node that it is posted to parses it and opens it, and writes the
lines to a scratch file.

* Printing and parsing lose nothing, so what is posted in an envelope is received
  (`Node.answer_post_wrap`).
* Reading loses blank lines and line ends, but no line of an entry.
* Writing loses the blanks at the end of each line, and there stands the identifier of a peer.

So all entries arrive, in the same order and with all their fields, but the identifiers of their
peers have lost the blanks at their ends (`Node.entries_of_posted_file`).
-/

namespace TrieOverlay

open Json (Written)

/-! ### Over the wire -/

end TrieOverlay
