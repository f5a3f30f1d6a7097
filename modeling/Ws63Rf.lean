import Ws63Rf.Scan
import Ws63Rf.Coupling
import Ws63Rf.CExpr
import Ws63Rf.Arithmetic
import Ws63Rf.Conversions
import Ws63Rf.Assignments
import Ws63Rf.ByteMemory
import Ws63Rf.TdBase
import Ws63Rf.OalUtil
import Ws63Rf.Positional
import Ws63Rf.Numerals
import Ws63Rf.StrtolProofs
import Ws63Rf.StrtolEnd
import Ws63Rf.AtoiProofs
import Ws63Rf.StrimProofs
import Ws63Rf.StringSafetyProofs
import Ws63Rf.StrtolSequence
import Ws63Rf.TrimmedNumbers
import Ws63Rf.PrintHexDump
import Ws63Rf.AddressProofs
import Ws63Rf.AddressTextProofs
import Ws63Rf.RandomEtherAddr
import Ws63Rf.Strtoipv4Proofs
import Ws63Rf.LinearCongruential
import Ws63Rf.GenRandomProofs
import Ws63Rf.GenRandomSeeds
import Ws63Rf.LapCounter
import Ws63Rf.BoundedQueue
import Ws63Rf.WlanRing
import Ws63Rf.WlanRingProofs
import Ws63Rf.WlanRingQueue
import Ws63Rf.CircularList
import Ws63Rf.NetbufList
import Ws63Rf.NetbufListProofs
import Ws63Rf.NetbufSessions
import Ws63Rf.Masks
import Ws63Rf.AlignmentProofs
import Ws63Rf.BitSetProofs
import Ws63Rf.RegFieldProofs
import Ws63Rf.RegBankProofs
import Ws63Rf.ComparisonProofs
import Ws63Rf.AlignmentTestProofs
import Ws63Rf.WordCodecProofs
import Ws63Rf.BaSequence
