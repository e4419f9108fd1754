import AetherOS.HeapGrowth
import AetherOS.KillRuns
import AetherOS.Ext2BookRuns
import AetherOS.Ext2RenameLaw
import AetherOS.Ext2Storage
import AetherOS.SpawnSpace
import AetherOS.TcpPorts
import AetherOS.UsablePages
import AetherOS.Nvme
import AetherOS.ArpCache
import AetherOS.Appends
import AetherOS.OpenRace
import AetherOS.Ext2Sparse
import AetherOS.Ext2Mount
import AetherOS.ReapRuns
import AetherOS.SavedContexts
import AetherOS.InterruptRuns
import AetherOS.BootTables
import AetherOS.FormatStrings
import AetherOS.LibcHeap
import AetherOS.ElfContents
import AetherOS.PathResolution
import AetherOS.Ext2Limits
import AetherOS.WriteDelivery
import AetherOS.ChunkedReads
import AetherOS.Gpt
import AetherOS.Checksums
import AetherOS.Dns
import AetherOS.Dhcp
import AetherOS.Acpi
import AetherOS.ProcessList
import AetherOS.KernelString
