import Brainfuck.Main
import Brainfuck.Proofs.RangeFaults
import Brainfuck.Proofs.Interpretation
import Brainfuck.Proofs.Reachability
import Brainfuck.Proofs.Partners
import Brainfuck.Proofs.Addresses
import Brainfuck.Proofs.Pieces
import Brainfuck.Proofs.Stability
import Brainfuck.Proofs.Lockstep
import Brainfuck.Proofs.Flushing
import Brainfuck.Proofs.Interruptions
import Brainfuck.Proofs.Resumption
import Brainfuck.Proofs.Truncation
import Brainfuck.Proofs.FixedPoint
import Brainfuck.Proofs.EndOfInput
import Brainfuck.Proofs.FlushEach
import Brainfuck.Proofs.EntryPoints
import Brainfuck.Proofs.Recognition
import Brainfuck.Proofs.Mismatches
import Brainfuck.Proofs.Canonical
import Brainfuck.Proofs.JumpValues
import Brainfuck.Proofs.Listings
import Brainfuck.Proofs.Scans
import Brainfuck.Proofs.Congruence
import Brainfuck.Proofs.Comments
import Brainfuck.Proofs.OpenLoops
