import Lsmdb.Native.System
import Lsmdb.Spec.BoundsCorrect
import Lsmdb.Spec.DamageCorrect
import Lsmdb.Spec.DrainCorrect
import Lsmdb.Spec.FaultsCorrect
import Lsmdb.Spec.LinearCorrect
import Lsmdb.Spec.LogCorrect
import Lsmdb.Spec.LruCorrect
import Lsmdb.Spec.ManifestCorrect
import Lsmdb.Spec.MemoryCorrect
import Lsmdb.Spec.MurmurCorrect
import Lsmdb.Spec.OffsetsCorrect
import Lsmdb.Spec.OpenCorrect
import Lsmdb.Spec.OversizedMerge
import Lsmdb.Spec.ScanCorrect
import Lsmdb.Spec.TablesCorrect
import Lsmdb.Spec.ThreadsCorrect
import Lsmdb.Spec.WalCorrect
