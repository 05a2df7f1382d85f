import StraightForth.Invocation
import StraightForth.Main
import StraightForth.Proofs.Arithmetic
import StraightForth.Proofs.Assembling
import StraightForth.Proofs.Classification
import StraightForth.Proofs.Columns
import StraightForth.Proofs.Comments
import StraightForth.Proofs.Contracts
import StraightForth.Proofs.Decoding
import StraightForth.Proofs.Delivery
import StraightForth.Proofs.Description
import StraightForth.Proofs.Dispatches
import StraightForth.Proofs.Dumps
import StraightForth.Proofs.Execution
import StraightForth.Proofs.Foretelling
import StraightForth.Proofs.Forms
import StraightForth.Proofs.History
import StraightForth.Proofs.Identifiers
import StraightForth.Proofs.Integers
import StraightForth.Proofs.Joining
import StraightForth.Proofs.Lexing
import StraightForth.Proofs.Likeness
import StraightForth.Proofs.Likeness.Listings
import StraightForth.Proofs.Likeness.Runs
import StraightForth.Proofs.Linking
import StraightForth.Proofs.Literals
import StraightForth.Proofs.Lockstep
import StraightForth.Proofs.Machine
import StraightForth.Proofs.Mirroring
import StraightForth.Proofs.Numbering
import StraightForth.Proofs.Pieces
import StraightForth.Proofs.Places
import StraightForth.Proofs.Recovery
import StraightForth.Proofs.References
import StraightForth.Proofs.Reformatting
import StraightForth.Proofs.Registers
import StraightForth.Proofs.Renaming
import StraightForth.Proofs.Reporting
import StraightForth.Proofs.Resets
import StraightForth.Proofs.Returning
import StraightForth.Proofs.Rewording
import StraightForth.Proofs.Scanning
import StraightForth.Proofs.Spelling
import StraightForth.Proofs.Steps
import StraightForth.Proofs.Streams
import StraightForth.Proofs.Strings
import StraightForth.Proofs.Translation
import StraightForth.Proofs.Unbounded
import StraightForth.Proofs.Underneath
import StraightForth.Proofs.Wrapping
import StraightForth.Proofs.Writing
